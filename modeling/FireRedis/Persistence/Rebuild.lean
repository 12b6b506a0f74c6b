import FireRedis.Commands.Atomic
import FireRedis.Commands.Expiry
import FireRedis.Persistence.Faithful
import FireRedis.Store.Fill

/-!
# Commands that build a value

`value_to_commands` writes a key as one command that builds its value and, for a
deadline, an EXPIRE. Parsed and executed where the key is absent, they give the
key the same value and a deadline rounded up to whole seconds.
-/

namespace FireRedis
open Std

/-! ### Parsing -/

section Parse

theorem bulkToString_bulk (s : Str) : bulkToString (bulk s.bytes) = .ok s := by
  show Except.ok (Str.fromUtf8Lossy s.bytes) = _
  rw [Str.fromUtf8Lossy_bytes]

theorem bulkToU64_displayU64 (n : UInt64) : bulkToU64 (bulk (Decimal.displayU64 n)) = .ok n := by
  have hnumber : (Str.fromUtf8Lossy (Decimal.displayU64 n)).bytes = Decimal.displayU64 n :=
    Str.fromUtf8Lossy_of_ascii _ (Decimal.ascii_decimal _)
  apply bulkToU64_of_parse
  rw [hnumber, Decimal.parseU64_displayU64]

theorem mapM_bulkToBytes (items : List Bytes) :
    (items.map bulk).mapM bulkToBytes = .ok items := by
  induction items with
  | nil => rfl
  | cons b items ih =>
    rw [List.map_cons, List.mapM_cons, ih]
    rfl

theorem readPairs_bulk {α β γ : Type} {read₁ : Value → Parsed α} {read₂ : Value → Parsed β}
    {a b : γ → Bytes} {x : γ → α} {y : γ → β} (h₁ : ∀ e, read₁ (bulk (a e)) = .ok (x e))
    (h₂ : ∀ e, read₂ (bulk (b e)) = .ok (y e)) (items : List γ) :
    readPairs read₁ read₂ ((items.flatMap fun e => [a e, b e]).map bulk) =
      .ok (items.map fun e => (x e, y e)) := by
  induction items with
  | nil => rfl
  | cons e items ih =>
    show readPairs read₁ read₂ (bulk (a e) :: bulk (b e) ::
      (items.flatMap fun e => [a e, b e]).map bulk) = _
    rw [readPairs, h₁, h₂, ih]
    rfl

theorem length_pairs {γ : Type} (a b : γ → Bytes) (items : List γ) :
    ((items.flatMap fun e => [a e, b e]).map bulk).length = 2 * items.length := by
  induction items with
  | nil => rfl
  | cons e items ih =>
    rw [List.length_map] at ih ⊢
    rw [List.flatMap_cons, List.length_append, ih]
    simp only [List.length_cons, List.length_nil]
    omega

theorem parseKeyAndMany_bulk (make : Str → List Bytes → Command) (name : Value) (key : Str)
    {items : List Bytes} (hne : items ≠ []) :
    parseKeyAndMany bulkToBytes make (name :: bulk key.bytes :: items.map bulk) =
      .ok (make key items) := by
  obtain ⟨b, items, rfl⟩ := List.exists_cons_of_ne_nil hne
  have hmany := mapM_bulkToBytes (b :: items)
  rw [List.map_cons] at hmany ⊢
  rw [parseKeyAndMany, bulkToString_bulk, hmany]
  rfl

theorem parseKeyAndPairs_bulk {α β γ : Type} {read₁ : Value → Parsed α}
    {read₂ : Value → Parsed β} (make : Str → List (α × β) → Command) {a b : γ → Bytes}
    {x : γ → α} {y : γ → β} (h₁ : ∀ e, read₁ (bulk (a e)) = .ok (x e))
    (h₂ : ∀ e, read₂ (bulk (b e)) = .ok (y e)) (name : Value) (key : Str) {items : List γ}
    (hne : items ≠ []) :
    parseKeyAndPairs read₁ read₂ make
      (name :: bulk key.bytes :: (items.flatMap fun e => [a e, b e]).map bulk) =
        .ok (make key (items.map fun e => (x e, y e))) := by
  have hlen := length_pairs a b items
  have hpos : 0 < items.length := List.length_pos_iff.mpr hne
  rw [parseKeyAndPairs, if_neg (by rw [hlen]; omega), bulkToString_bulk, readPairs_bulk h₁ h₂]
  rfl

end Parse

/-! ### Collections with something in them -/

namespace IterOrder

variable (ord : IterOrder)

theorem members_ne_nil {S : ExtTreeSet Bytes} (h : S.isEmpty = false) : ord.members S ≠ [] := by
  obtain ⟨m, hm⟩ := (ExtTreeSet.isEmpty_eq_false_iff_exists S).mp h
  exact List.ne_nil_of_mem ((ord.members_perm S).mem_iff.mpr (ExtTreeSet.mem_toList.mpr hm))

theorem fields_ne_nil {H : ExtTreeMap Str Bytes} (h : H.isEmpty = false) : ord.fields H ≠ [] := by
  obtain ⟨f, b, hb⟩ := (ExtTreeMap.isEmpty_eq_false_iff_exists H).mp h
  exact List.ne_nil_of_mem ((ord.fields_perm H).mem_iff.mpr
    (ExtTreeMap.mem_toList_iff_getElem?_eq_some.mpr hb))

theorem scores_ne_nil {scores : ExtTreeMap Bytes F64} (h : scores.isEmpty = false) :
    ord.scores scores ≠ [] := by
  obtain ⟨m, x, hx⟩ := (ExtTreeMap.isEmpty_eq_false_iff_exists scores).mp h
  exact List.ne_nil_of_mem ((ord.scores_perm scores).mem_iff.mpr
    (ExtTreeMap.mem_toList_iff_getElem?_eq_some.mpr hx))

end IterOrder

/-! ### Executing where the key is absent -/

section Absent

variable (F : FloatText) (ord : IterOrder) (info : Bytes) (now : Reading) {key : Str} {s : Store}
  (hs : s.Inv fun _ => True) (habsent : s.data[key]? = none)

theorem execute_one {args : List Value} {cmd : Command} {reply : Value} {s' : Store}
    (hparse : tryFrom F args = .ok cmd)
    (hrun : (cmd.execute F ord info).runAt now s = (.ok reply, s')) :
    (forM [Value.array (some args)] (executeCommand F ord info)).runAt now s = (.ok (), s') := by
  rw [List.forM_cons, executeCommand_parsed F ord info hparse, bind_assoc, runAt_bind_ok now hrun]
  rfl

include habsent

theorem live_absent (t : Instant) : s.live t key = none := by
  rw [Store.live, habsent]
  rfl

include hs

theorem touch_absent (t : Instant) : s.touch t key = s := by
  have hself := Store.put_self s key
  rw [habsent, hs.deadlines key habsent] at hself
  rw [Store.touch, live_absent habsent]
  exact hself

theorem withType_absent (expected : String) (body : StoreM Value) :
    (withType key expected body).runAt now s = body.runAt now s := by
  have hnone := live_absent habsent now.instant
  rw [withType_match hs now key expected body (by simp [hnone]), touch_absent hs habsent]

theorem handleSet_absent (value : Bytes) : (handleSet key value none .none).runAt now s =
    (.ok ok, s.put key (some (.string value)) none) := by
  have hexists := Store.existsKey_run hs now key
  rw [live_absent habsent, touch_absent hs habsent] at hexists
  rw [handleSet, runAt_bind_ok now hexists]
  show StoreM.runAt (Store.set key value none >>= fun _ => pure ok) now s = _
  rw [runAt_bind_ok now (Store.set_run now key value none)]
  rfl

theorem upsertAll_absent {α β γ : Type} (init : StoredValue)
    (f : α → StoredValue → γ × StoredValue) (g : β → γ → β) {items : List α} (hne : items ≠ [])
    (b : β) : ∃ r,
    (items.foldlM (fun b a => do
      let c ← Store.upsert key init (f a)
      return g b c) b : StoreM β).runAt now s =
      (.ok r, s.put key (some (items.foldl (fun v a => (f a v).2) init)) none) := by
  have h := Store.upsertLoop_spec s now key init f g hne b
  rw [live_absent habsent, Store.pending_eq hs, live_absent habsent] at h
  dsimp only at h
  rw [snd_foldl _ (fun v a => (f a v).2) fun _ _ _ => rfl] at h
  exact ⟨_, h⟩

theorem handleRPush_absent {items : List Bytes} (hne : items ≠ []) : ∃ reply,
    (handleRPush key items).runAt now s = (.ok reply, s.put key (some (.list items)) none) := by
  have hfold : ∀ items l : List Bytes, items.foldl (fun v a => (Store.pushBack a v).2)
      (StoredValue.list l) = StoredValue.list (l ++ items) := by
    intro items
    induction items with
    | nil => simp
    | cons b items ih =>
      intro l
      rw [List.foldl_cons]
      rw [Store.pushBack, ih]
      simp
  obtain ⟨r, hr⟩ := upsertAll_absent now hs habsent (.list []) Store.pushBack (fun _ n => n) hne 0
  rw [hfold, List.nil_append] at hr
  simp only [bind_pure] at hr
  have hpush : (items.foldlM (fun _ val => Store.rPush key val) 0).runAt now s =
      (.ok r, s.put key (some (.list items)) none) := hr
  have hempty : items.isEmpty = false := by simpa using hne
  refine ⟨count r, ?_⟩
  rw [handleRPush, withType_absent now hs habsent, hempty]
  exact runAt_bind_ok now hpush

theorem handleSAdd_absent (members : List Bytes) : ∃ reply,
    (handleSAdd key members).runAt now s =
      (.ok reply, s.put key (some (.set (members.foldl (fun S m => S.insert m) ∅))) none) := by
  have hadd := Store.upsert_run hs now key (.set ∅) (Store.addToSet members)
  rw [live_absent habsent] at hadd
  refine ⟨count (Store.insertMembers members ∅).1, ?_⟩
  rw [handleSAdd, withType_absent now hs habsent, ← Store.insertMembers_snd]
  exact runAt_bind_ok now hadd

theorem handleHSet_absent {fields : List (Str × Bytes)} (hne : fields ≠ []) : ∃ reply,
    (handleHSet key fields).runAt now s =
      (.ok reply,
        s.put key (some (.hash (fields.foldl (fun H e => H.insert e.1 e.2) ∅))) none) := by
  have hfold : ∀ (fields : List (Str × Bytes)) (H : ExtTreeMap Str Bytes),
      fields.foldl (fun v e => (Store.setField e.1 e.2 v).2) (StoredValue.hash H) =
        .hash (fields.foldl (fun H e => H.insert e.1 e.2) H) := by
    intro fields
    induction fields with
    | nil => exact fun H => rfl
    | cons e fields ih => exact fun H => ih (H.insert e.1 e.2)
  obtain ⟨r, hr⟩ := upsertAll_absent now hs habsent (.hash ∅)
    (fun e => Store.setField e.1 e.2)
    (fun (added : Int64) new => if new then added + 1 else added) hne 0
  rw [hfold] at hr
  refine ⟨.integer r, ?_⟩
  rw [handleHSet, withType_absent now hs habsent]
  exact runAt_bind_ok now hr

theorem handleZAdd_absent {entries : List (F64 × Bytes)} (hne : entries ≠ []) : ∃ reply,
    (handleZAdd key entries).runAt now s =
      (.ok reply, s.put key (some (.sortedSet
        (SortedSet.insertAll (entries.map Prod.swap) ⟨∅, ∅⟩))) none) := by
  have hfold : ∀ (entries : List (F64 × Bytes)) z,
      entries.foldl (fun v e => (Store.addToSortedSet e.1 e.2 v).2) (StoredValue.sortedSet z) =
        .sortedSet (SortedSet.insertAll (entries.map Prod.swap) z) := by
    intro entries
    induction entries with
    | nil => exact fun z => rfl
    | cons e entries ih => exact fun z => ih (Store.zInsert e.1 e.2 z)
  obtain ⟨r, hr⟩ := upsertAll_absent now hs habsent (.sortedSet ⟨∅, ∅⟩)
    (fun e => Store.addToSortedSet e.1 e.2) (fun (changed : Int64) new =>
      if new then changed + 1 else changed) hne 0
  rw [hfold] at hr
  refine ⟨.integer r, ?_⟩
  rw [handleZAdd, withType_absent now hs habsent]
  exact runAt_bind_ok now hr

theorem buildCommand_run (hF : F.RoundTrips) (ord' : IterOrder) {v : StoredValue}
    (hv : v.WellFormed) : ∃ v', v.Same v' ∧
      (forM (buildCommand F ord' key v) (executeCommand F ord info)).runAt now s =
        (.ok (), s.put key (some v') none) := by
  cases v with
  | string b =>
    have hparse : tryFrom F [bulk (Str.utf8 "SET"), bulk key.bytes, bulk b] =
        .ok (.set key b none .none) := by
      show (bulkToString (bulk key.bytes) >>= fun key =>
        (.ok (Command.set key b none .none) : Parsed Command)) = _
      rw [bulkToString_bulk]
      rfl
    exact ⟨.string b, rfl, execute_one F ord info now hparse (handleSet_absent now hs habsent b)⟩
  | list items =>
    have hne : items ≠ [] := hv
    have hparse : tryFrom F (bulk (Str.utf8 "RPUSH") :: bulk key.bytes :: items.map bulk) =
        .ok (.rPush key items) := parseKeyAndMany_bulk .rPush (bulk (Str.utf8 "RPUSH")) key hne
    obtain ⟨reply, hrun⟩ := handleRPush_absent now hs habsent hne
    rw [buildCommand, if_neg hne]
    exact ⟨.list items, rfl, execute_one F ord info now hparse hrun⟩
  | set S =>
    have hempty : S.isEmpty = false := hv
    have hne := ord'.members_ne_nil hempty
    have hparse : tryFrom F (bulk (Str.utf8 "SADD") :: bulk key.bytes ::
        (ord'.members S).map bulk) = .ok (.sAdd key (ord'.members S)) :=
      parseKeyAndMany_bulk .sAdd (bulk (Str.utf8 "SADD")) key hne
    obtain ⟨reply, hrun⟩ := handleSAdd_absent now hs habsent (ord'.members S)
    rw [ExtTreeSet.foldl_insert_perm S _ (ord'.members_perm S)] at hrun
    rw [buildCommand, hempty]
    exact ⟨.set S, rfl, execute_one F ord info now hparse hrun⟩
  | hash H =>
    have hempty : H.isEmpty = false := hv
    have hne := ord'.fields_ne_nil hempty
    have hfield : ∀ e : Str × Bytes, bulkToString (bulk e.1.bytes) = .ok e.1 := fun e =>
      bulkToString_bulk e.1
    have hvalue : ∀ e : Str × Bytes, bulkToBytes (bulk e.2) = .ok e.2 := fun _ => rfl
    have hparse : tryFrom F (bulk (Str.utf8 "HSET") :: bulk key.bytes ::
        ((ord'.fields H).flatMap fun e => [e.1.bytes, e.2]).map bulk) =
          .ok (.hSet key ((ord'.fields H).map fun e => (e.1, e.2))) :=
      parseKeyAndPairs_bulk .hSet hfield hvalue (bulk (Str.utf8 "HSET")) key hne
    rw [List.map_id'] at hparse
    obtain ⟨reply, hrun⟩ := handleHSet_absent now hs habsent hne
    rw [ExtTreeMap.foldl_insert_perm H _ (ord'.fields_perm H)] at hrun
    rw [buildCommand, hempty]
    exact ⟨.hash H, rfl, execute_one F ord info now hparse hrun⟩
  | sortedSet z =>
    obtain ⟨hempty, hz⟩ : z.scores.isEmpty = false ∧ z.Consistent := hv
    have hne := ord'.scores_ne_nil hempty
    choose back hback hrank using hF
    have hscore : ∀ e : Bytes × F64, bulkToF64 F (bulk (F.toString e.2).bytes) =
        .ok (back e.2) := by
      intro e
      rw [bulk, bulkToF64, Str.fromUtf8Lossy_bytes, hback]
      rfl
    have hmember : ∀ e : Bytes × F64, bulkToBytes (bulk e.1) = .ok e.1 := fun _ => rfl
    have hparse : tryFrom F (bulk (Str.utf8 "ZADD") :: bulk key.bytes ::
        ((ord'.scores z.scores).flatMap fun e => [(F.toString e.2).bytes, e.1]).map bulk) =
          .ok (.zAdd key ((ord'.scores z.scores).map fun e => (back e.2, e.1))) :=
      parseKeyAndPairs_bulk .zAdd hscore hmember (bulk (Str.utf8 "ZADD")) key hne
    have hne' : ((ord'.scores z.scores).map fun e => (back e.2, e.1)) ≠ [] := by simpa using hne
    obtain ⟨reply, hrun⟩ := handleZAdd_absent now hs habsent hne'
    have hitems : SortedSet.SameItems (ord'.scores z.scores)
        (((ord'.scores z.scores).map fun e => (back e.2, e.1)).map Prod.swap) := by
      rw [List.map_map, SortedSet.SameItems, List.forall₂_map_right_iff, List.forall₂_same]
      exact fun e _ => ⟨rfl, hrank e.2⟩
    rw [buildCommand, hempty]
    exact ⟨.sortedSet _, SortedSet.same_insertAll hz (ord'.scores_perm z.scores) hitems,
      execute_one F ord info now hparse hrun⟩

/-- A rewritten key: its value, and a deadline that counts from now. -/
theorem valueToCommands_run (hF : F.RoundTrips) (ord' : IterOrder) {v : StoredValue}
    (hv : v.WellFormed) (ttlMs : Option UInt64) : ∃ v', v.Same v' ∧
      (forM (valueToCommands F ord' key v ttlMs) (executeCommand F ord info)).runAt now s =
        (.ok (), s.put key (some v')
          (ttlMs.map fun ms => now.instant + fromMillis (ceilSeconds ms * 1000))) := by
  obtain ⟨v', hsame, hbuild⟩ := buildCommand_run F ord info now hs habsent hF ord' hv
  refine ⟨v', hsame, ?_⟩
  rw [valueToCommands.eq_def, List.forM_append, runAt_bind_ok now hbuild]
  cases ttlMs with
  | none => rfl
  | some ms =>
    have hparse : tryFrom F [bulk (Str.utf8 "EXPIRE"), bulk key.bytes,
        bulk (Decimal.displayU64 (ceilSeconds ms))] =
          .ok (.expire key (ceilSeconds ms * 1000)) :=
      parse_expire F (bulkToString_bulk key) (bulkToU64_displayU64 _)
    have hlive : (s.put key (some v') none).live now.instant key = some ⟨v', none⟩ := by
      rw [Store.live_put_self]
      rfl
    have hexpire := Store.expire_run (Store.inv_put hs key (v := some v') (d := none)
      (fun _ _ => trivial) nofun) now key (ceilSeconds ms * 1000)
    rw [hlive] at hexpire
    have hrun : ((Command.expire key (ceilSeconds ms * 1000)).execute F ord info).runAt now
        (s.put key (some v') none) = (.ok (.integer 1),
          s.put key (some v') (some (now.instant + fromMillis (ceilSeconds ms * 1000)))) := by
      rw [Command.execute, handleExpire, runAt_bind_ok now hexpire, Store.put_put]
      rfl
    exact execute_one F ord info now hparse hrun

end Absent

/-! ### Whole seconds -/

/-- The deadline that a key gets back from a rewrite at `t`. -/
def rewrittenDeadline (t d : Instant) : Instant :=
  t + fromMillis (ceilSeconds (UInt64.ofNat (max (asMillis (d - t)) 1)) * 1000)

theorem toNat_ceilSeconds (ms : UInt64) :
    (ceilSeconds ms).toNat = max ((ms.toNat + 999) / 1000) 1 := by
  have hlt : ms.toNat < 2 ^ 64 := ms.toNat_lt
  rw [ceilSeconds, UInt64.toNat_ofNat']
  omega

theorem toNat_mul_thousand (x : UInt64) : (x * 1000).toNat = x.toNat * 1000 % 2 ^ 64 :=
  UInt64.toNat_mul x 1000

/-- Milliseconds rounded up to a second may pass 2^64, but are no multiple of it. -/
theorem ceilSeconds_pos (ms : UInt64) : 0 < (ceilSeconds ms * 1000).toNat := by
  have hlt : ms.toNat < 2 ^ 64 := ms.toNat_lt
  have hle : max ((ms.toNat + 999) / 1000) 1 ≤ 18446744073709552 := by omega
  have hone : 0 < max ((ms.toNat + 999) / 1000) 1 := by omega
  rw [toNat_mul_thousand, toNat_ceilSeconds]
  generalize max ((ms.toNat + 999) / 1000) 1 = seconds at hle hone
  rcases Nat.lt_or_eq_of_le hle with hshort | rfl
  · have hfits : seconds * 1000 < 2 ^ 64 := by omega
    rw [Nat.mod_eq_of_lt hfits]
    omega
  · decide

theorem rewrittenDeadline_later (t d : Instant) : t < rewrittenDeadline t d :=
  Nat.lt_add_of_pos_right (Nat.mul_pos (ceilSeconds_pos _) (Nat.succ_pos _))

theorem wholeSeconds_within {t d ms : ℕ} (h : t + ms * 1000000 = d) :
    d ≤ t + (ms + 999) / 1000 * 1000 * 1000000 ∧
      t + (ms + 999) / 1000 * 1000 * 1000000 < d + 1000000000 := by
  omega

/-- A deadline written in whole seconds comes less than a second late. -/
theorem rewrittenDeadline_within {t d : ℕ} (hlt : t < d) (hwhole : 1000000 ∣ d - t)
    (hmax : asMillis (d - t) + 999 < 2 ^ 64) :
    d ≤ rewrittenDeadline t d ∧ rewrittenDeadline t d < d + 1000000000 := by
  obtain ⟨hpos, hexact⟩ := asMillis_exact hlt hwhole
  have hmax' : max (asMillis (d - t)) 1 = asMillis (d - t) := by omega
  have hms : (UInt64.ofNat (asMillis (d - t))).toNat = asMillis (d - t) := by
    rw [UInt64.toNat_ofNat']
    omega
  have hmillis : (ceilSeconds (UInt64.ofNat (asMillis (d - t))) * 1000).toNat =
      (asMillis (d - t) + 999) / 1000 * 1000 := by
    rw [toNat_mul_thousand, toNat_ceilSeconds, hms]
    omega
  have hlate : rewrittenDeadline t d =
      t + (asMillis (d - t) + 999) / 1000 * 1000 * 1000000 := by
    rw [rewrittenDeadline, hmax', fromMillis, hmillis]
  rw [hlate]
  exact wholeSeconds_within hexact

end FireRedis
