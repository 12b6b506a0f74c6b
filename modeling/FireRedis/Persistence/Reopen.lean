import FireRedis.Persistence.Overflow

/-!
# A snapshot loaded later

The wall clock and the monotonic clock run in step, in whole milliseconds. A
file that was saved at one moment and is loaded at a later one gives back what
has not expired in between.
-/

namespace FireRedis
open Std RdbSerializer RdbDeserializer

/-- `epoch` is the Unix time in nanoseconds at the zero of the monotonic clock. -/
def Reading.InStep (epoch : ℕ) (now : Reading) : Prop :=
  now.unixMs.toNat * 1000000 = epoch + now.instant

/-- All deadlines are whole milliseconds of Unix time. -/
def Store.MilliDeadlines (epoch : ℕ) (s : Store) : Prop :=
  ∀ (key : Str) d, s.expirations[key]? = some d → 1000000 ∣ epoch + d

theorem milliDeadlines_empty (epoch : ℕ) : Store.empty.MilliDeadlines epoch := by
  intro key d hd
  simp [Store.empty] at hd

theorem milliDeadlines_new {epoch : ℕ} {now : Reading} {s s' : Store}
    (h : s.MilliDeadlines epoch) (hnow : now.InStep epoch)
    (hnew : NewDeadlines now.instant s s') : s'.MilliDeadlines epoch := by
  intro key d hd
  rcases hnew key d hd with hold | ⟨ms, rfl⟩
  · exact h key d hold
  · rw [← Nat.add_assoc, ← hnow, fromMillis]
    omega

/-- The live values can be allocated, and no live deadline lies past the last
millisecond of Unix time. -/
structure Savable (epoch : ℕ) (s : Store) (t : Instant) : Prop where
  fits : FitsAt s t
  unix : ∀ key e d, s.live t key = some e → e.deadline = some d → epoch + d < 2 ^ 64 * 1000000

theorem savable_string {epoch : ℕ} {d : Option Instant} (key : Str) (b : Bytes) (t : Instant)
    (hd : ∀ x, d = some x → epoch + x < 2 ^ 64 * 1000000) :
    Savable epoch (Store.empty.put key (some (.string b)) d) t := by
  have hinv : (Store.empty.put key (some (.string b)) d).Inv StoredValue.Fits := by
    apply Store.inv_put (Store.inv_empty _)
    · intro v hv
      rw [← Option.some.inj hv]
      trivial
    · simp
  refine ⟨fun j e he => Store.value_of_live hinv he, fun j e x he hx => hd x ?_⟩
  have hexp := (liveOf_eq_some.mp he).2.1.trans hx
  rw [Store.put_expirations] at hexp
  split at hexp
  · exact hexp
  · simp [Store.empty] at hexp

/-! ### One record -/

/-- The time that a save writes for a deadline. -/
def expireAt (saved : Reading) (d : ℕ) : UInt64 :=
  saved.unixMs + UInt64.ofNat (asMillis (d - saved.instant))

section Times

variable {epoch : ℕ} {saved now : Reading} {d : ℕ} (hsaved : saved.InStep epoch)
  (hnow : now.InStep epoch) (hlt : d > saved.instant) (hwhole : 1000000 ∣ epoch + d)
  (hunix : epoch + d < 2 ^ 64 * 1000000)
include hsaved hlt hwhole hunix

theorem expireAt_unix : (expireAt saved d).toNat * 1000000 = epoch + d := by
  obtain ⟨k, hk⟩ := hwhole
  have hstep : saved.unixMs.toNat * 1000000 = epoch + saved.instant := hsaved
  have hmillis : asMillis (d - saved.instant) = k - saved.unixMs.toNat := by
    rw [asMillis]
    omega
  have hle : saved.unixMs.toNat ≤ k := by omega
  have hfit : saved.unixMs.toNat + asMillis (d - saved.instant) < 2 ^ 64 := by
    rw [hmillis]
    omega
  rw [expireAt, toNat_sum hfit, hmillis, Nat.add_sub_cancel' hle, hk, Nat.mul_comm]

include hnow

theorem expireAt_later : expireAt saved d > now.unixMs ↔ d > now.instant := by
  have hat := expireAt_unix hsaved hlt hwhole hunix
  have hstep : now.unixMs.toNat * 1000000 = epoch + now.instant := hnow
  rw [gt_iff_lt, UInt64.lt_iff_toNat_lt]
  constructor
  · intro h
    omega
  · intro h
    omega

theorem expireAt_deadline (hlater : d > now.instant) :
    fromMillis (expireAt saved d - now.unixMs) + now.instant = d := by
  have hat := expireAt_unix hsaved hlt hwhole hunix
  have hstep : now.unixMs.toNat * 1000000 = epoch + now.instant := hnow
  have hle : now.unixMs ≤ expireAt saved d :=
    UInt64.le_of_lt ((expireAt_later hsaved hnow hlt hwhole hunix).mpr hlater)
  rw [fromMillis, UInt64.toNat_sub_of_le _ _ hle, Nat.sub_mul]
  omega

end Times

/-! ### All records -/

theorem forM_filter {α : Type} {f : α → StoreM Unit} {p : α → Bool} (items : List α)
    (h : ∀ a ∈ items, p a = false → f a = pure ()) : forM items f = forM (items.filter p) f := by
  induction items with
  | nil => rfl
  | cons a items ih =>
    have htail := ih fun b hb => h b (List.mem_cons_of_mem _ hb)
    rw [List.forM_cons, htail]
    cases hp : p a with
    | true => rw [List.filter_cons_of_pos hp, List.forM_cons]
    | false =>
      rw [List.filter_cons_of_neg (by rw [hp]; exact Bool.false_ne_true),
        h a (List.mem_cons_self ..) hp]
      rfl

/-- The item of a listing has not expired. -/
def Store.holds (s : Store) (t : Instant) (item : Str × StoredValue) : Bool :=
  (s.live t item.1).isSome

theorem live_since {s : Store} {t t' : Instant} (hle : t ≤ t') {key : Str} {e : Entry}
    (he : s.live t key = some e) :
    s.live t' key = if ∀ d, e.deadline = some d → t' < d then some e else none := by
  rw [Store.live_later s hle, he, Option.filter_some]
  cases hd : e.deadline with
  | none => simp
  | some d => simp

/-- What a listing still holds lists the store as it is later. -/
theorem listing_later (s : Store) {t t' : Instant} (hle : t ≤ t')
    {listing : List (Str × StoredValue)} (hperm : listing.Perm (s.evicted t).data.toList) :
    (listing.filter (s.holds t')).Perm (s.evicted t').data.toList := by
  have hnodup := ExtTreeMap.nodup_fst_toList _ _ hperm
  have hnodup' := ExtTreeMap.nodup_fst_toList (s.evicted t').data _ (List.Perm.refl _)
  apply (List.perm_ext_iff_of_nodup (hnodup.of_map.filter _) hnodup'.of_map).mpr
  rintro ⟨key, v⟩
  rw [List.mem_filter, mem_evicted hperm, mem_evicted (List.Perm.refl _), Store.holds]
  constructor
  · rintro ⟨⟨e, he, hv⟩, hsome⟩
    obtain ⟨e', he'⟩ := Option.isSome_iff_exists.mp hsome
    have hkept := live_since hle he
    rw [he'] at hkept
    split at hkept
    · exact ⟨e', he', Option.some.inj hkept ▸ hv⟩
    · cases hkept
  · rintro ⟨e, he, hv⟩
    have hearlier := he
    rw [Store.live_later s hle, Option.filter_eq_some_iff] at hearlier
    exact ⟨⟨e, hearlier.1, hv⟩, Option.isSome_iff_exists.mpr ⟨e, he⟩⟩

section Load

variable {F : FloatText} (hF : F.RoundTrips) (ord : IterOrder) {epoch : ℕ} {s : Store}
  (hs : s.Inv StoredValue.WellFormed) (hmilli : s.MilliDeadlines epoch) {saved now : Reading}
  (hsaved : saved.InStep epoch) (hnow : now.InStep epoch) (hle : saved.instant ≤ now.instant)
  (hsavable : Savable epoch s saved.instant)
include hF hs hmilli hsaved hnow hle hsavable

/-- A record gives its key the entry that was saved, unless that has expired. -/
theorem recordAct_later {item : Str × StoredValue}
    (hitem : item ∈ ord.data (s.evicted saved.instant).data) :
    let act := fun item => recordAct F ord now.unixMs
      (savedRecord saved (s.evicted saved.instant) item)
    (s.holds now.instant item = false → act item = pure ()) ∧
      (s.holds now.instant item = true →
        Fills now Prod.fst act (Carries Eq s now.instant) item) := by
  obtain ⟨key, v⟩ := item
  intro act
  obtain ⟨e, he, rfl⟩ := (mem_evicted (ord.data_perm _) key v).mp hitem
  obtain ⟨v, hv, hsame⟩ := reparse_same ord (Store.value_of_live hs he) hF
  have hexp : (s.evicted saved.instant).expirations[key]? = e.deadline := by
    rw [Store.evicted_expirations hs, he]
    rfl
  have hact : act (key, e.value) = (stepOf now.unixMs ⟨key, e.value, e.deadline.map
      (expireAt saved)⟩ v).act := by
    rw [← hexp]
    exact recordAct_read F ord now.unixMs hv
  have hfills : (∀ s₀ : Store, s₀.expirations[key]? = none → (act (key, e.value)).runAt now s₀ =
      (.ok (), s₀.put key (some v) e.deadline)) → s.live now.instant key = some e →
        Fills now Prod.fst act (Carries Eq s now.instant) (key, e.value) := by
    intro hrun hlive s₀ hs₀ hnew
    refine ⟨v, e.deadline, ⟨hsame, ?_⟩, hrun s₀ (hs₀.deadlines key hnew)⟩
    rw [hlive, Option.bind_some]
    cases e.deadline with
    | none => exact Option.Rel.none
    | some d => exact Option.Rel.some rfl
  have hsince := live_since hle he
  rw [Store.holds]
  cases hd : e.deadline with
  | none =>
    rw [hd] at hact hsince
    rw [if_pos nofun] at hsince
    rw [hsince]
    refine ⟨fun h => Bool.noConfusion h, fun _ => hfills (fun s₀ hnew => ?_) hsince⟩
    rw [hact, hd]
    show StoreM.runAt (LoadStep.act (.restore key v)) now s₀ = _
    rw [LoadStep.act, Store.restore_run, hnew]
  | some d =>
    have hlt : d > saved.instant := (liveOf_eq_some.mp he).2.2 d hd
    have hwhole := hmilli key d ((liveOf_eq_some.mp he).2.1.trans hd)
    have hunix := hsavable.unix key e d he hd
    have hlater := expireAt_later hsaved hnow hlt hwhole hunix
    rw [hd] at hact hsince
    have hstep : act (key, e.value) = LoadStep.act (if expireAt saved d > now.unixMs then
      .setWithTtl key v (expireAt saved d - now.unixMs) else .skip) := hact
    by_cases hlive : d > now.instant
    · rw [if_pos fun x hx => Option.some.inj hx ▸ hlive] at hsince
      rw [hsince]
      refine ⟨fun h => Bool.noConfusion h, fun _ => hfills (fun s₀ _ => ?_) hsince⟩
      rw [hstep, if_pos (hlater.mpr hlive), LoadStep.act, Store.setWithTtl_run, Nat.add_comm,
        expireAt_deadline hsaved hnow hlt hwhole hunix hlive, hd]
    · rw [if_neg fun h => hlive (h d rfl)] at hsince
      rw [hsince]
      refine ⟨fun _ => ?_, fun h => Bool.noConfusion h⟩
      rw [hstep, if_neg fun hms => hlive (hlater.mp hms)]
      rfl

/-- A load gives back the dataset that was saved, less what has expired since. -/
theorem reload_later {fs : FileSystem} {path : PathBuf}
    (hread : fs.read path = some (savedBytes F ord saved (s.evicted saved.instant)))
    (hlen : (savedBytes F ord saved (s.evicted saved.instant)).length ≤ isizeMax) :
    ∃ s', (loadFromFile F fs path).runAt now Store.empty = (.ok (.ok ()), s') ∧
      Dataset.Related Eq (s.live now.instant) (s'.live now.instant) := by
  have hperm := ord.data_perm (s.evicted saved.instant).data
  obtain ⟨s', hfill, hrelated⟩ := fill_related now Eq (fun d d' h hd => hd ▸ h) _
    (listing_later s hle hperm) _ fun item hitem =>
      let ⟨hmem, hholds⟩ := List.mem_filter.mp hitem
      (recordAct_later hF ord hs hmilli hsaved hnow hle hsavable hmem).2 hholds
  refine ⟨s', ?_, hrelated⟩
  rw [loadFromFile_saved F ord saved hsavable.fits hread hlen, runAt_bind, runAt_unixNow]
  show (loadRecords F ord now.unixMs _).runAt now Store.empty = _
  rw [loadRecords_eq, List.forM_map, forM_filter _ fun item hitem =>
    (recordAct_later hF ord hs hmilli hsaved hnow hle hsavable hitem).1, runAt_bind_ok now hfill]
  · rfl
  · intro r hr
    obtain ⟨⟨key, v⟩, hitem, rfl⟩ := List.mem_map.mp hr
    obtain ⟨e, he, rfl⟩ := (mem_evicted hperm key v).mp hitem
    obtain ⟨v, hv, -⟩ := reparse_same ord (Store.value_of_live hs he) hF
    exact ⟨_, recordStep_read F ord now.unixMs hv, stepOf_ne_eof _ _ _⟩

end Load

end FireRedis
