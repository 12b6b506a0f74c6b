import FireRedis.Persistence.Indexes
import FireRedis.Persistence.Rebuild

/-!
# Deadlines in Unix time (persistence/rdb.rs)

A save adds the milliseconds that are left to a key to the Unix time, in the 64
bits that both have. The loader compares the sum with its own Unix time: where
the sum has wrapped, the key is gone.
-/

namespace FireRedis
open Std RdbSerializer RdbDeserializer

/-! ### The sum -/

theorem asMillis_left (ms : UInt64) {t₀ t : ℕ} (h : t₀ ≤ t) :
    asMillis (t₀ + ms.toNat * 1000000 - t) ≤ ms.toNat := by
  unfold asMillis
  omega

theorem unix_fits (u left : ℕ) :
    u + asMillis left < 2 ^ 64 ↔ u * 1000000 + left < 2 ^ 64 * 1000000 := by
  unfold asMillis
  omega

section Sum

variable {u : UInt64} {left : ℕ}

theorem toNat_sum (h : u.toNat + left < 2 ^ 64) :
    (u + UInt64.ofNat left).toNat = u.toNat + left := by
  rw [UInt64.toNat_add, UInt64.toNat_ofNat', Nat.mod_eq_of_lt (a := left) (by omega)]
  exact Nat.mod_eq_of_lt h

theorem sum_wrapped (hleft : left < 2 ^ 64) (h : 2 ^ 64 ≤ u.toNat + left) :
    u + UInt64.ofNat left < u := by
  have hu := u.toNat_lt
  have hsum : (u + UInt64.ofNat left).toNat = u.toNat + left - 2 ^ 64 := by
    rw [UInt64.toNat_add, UInt64.toNat_ofNat', Nat.mod_eq_of_lt hleft]
    omega
  rw [UInt64.lt_iff_toNat_lt, hsum]
  omega

end Sum

/-! ### One record among the others -/

section Records

variable (F : FloatText) (ord : IterOrder) (currentTime : UInt64) (now : Reading)

theorem recordAct_read {r : Record} {v : StoredValue} (hv : reparse F ord r.value = .ok v) :
    recordAct F ord currentTime r = (stepOf currentTime r v).act := by
  rw [recordAct, recordStep_read F ord currentTime hv]

/-- A record with a deadline gives its key an entry or leaves the store as it is. -/
theorem recordAct_run {r : Record} {v : StoredValue} (hv : reparse F ord r.value = .ok v)
    {ms : UInt64} (hms : r.expireAtMs = some ms) (s : Store) :
    (recordAct F ord currentTime r).runAt now s = (.ok (), if ms > currentTime then
      s.put r.key (some v) (some (now.instant + fromMillis (ms - currentTime))) else s) := by
  rw [recordAct_read F ord currentTime hv, stepOf, hms]
  show StoreM.runAt (LoadStep.act (if ms > currentTime then _ else _)) now s = _
  split
  · exact Store.setWithTtl_run ..
  · rfl

theorem recordAct_other {r : Record} {v : StoredValue} (hv : reparse F ord r.value = .ok v)
    {key : Str} (hne : key ≠ r.key) (t : Instant) (s : Store) :
    ∃ s', (recordAct F ord currentTime r).runAt now s = (.ok (), s') ∧
      s'.live t key = s.live t key := by
  have hput : ∀ d, (s.put r.key (some v) d).live t key = s.live t key := fun d =>
    (congrFun (Store.live_put ..) key).trans (Function.update_of_ne hne ..)
  cases hms : r.expireAtMs with
  | none =>
    refine ⟨_, ?_, hput s.expirations[r.key]?⟩
    rw [recordAct_read F ord currentTime hv, stepOf, hms]
    exact Store.restore_run ..
  | some ms =>
    refine ⟨_, recordAct_run F ord currentTime now hv hms s, ?_⟩
    split
    · exact hput _
    · rfl

theorem forM_other {records : List Record}
    (hread : ∀ r ∈ records, ∃ v, reparse F ord r.value = .ok v) {key : Str}
    (hkey : key ∉ records.map Record.key) (t : Instant) (s : Store) :
    ∃ s', (forM records (recordAct F ord currentTime)).runAt now s = (.ok (), s') ∧
      s'.live t key = s.live t key := by
  induction records generalizing s with
  | nil => exact ⟨s, rfl, rfl⟩
  | cons r records ih =>
    rw [List.map_cons, List.mem_cons, not_or] at hkey
    obtain ⟨hne, hrest⟩ := hkey
    obtain ⟨v, hv⟩ := hread r (List.mem_cons_self ..)
    obtain ⟨s₁, hrun, hlive⟩ := recordAct_other F ord currentTime now hv hne t s
    obtain ⟨s', hrun', hlive'⟩ := ih (fun q hq => hread q (List.mem_cons_of_mem _ hq)) hrest s₁
    refine ⟨s', ?_, hlive'.trans hlive⟩
    rw [List.forM_cons, runAt_bind_ok now hrun, hrun']

/-- A record with a deadline gives its key to an empty store exactly if the
deadline is later than the Unix time of the load. -/
theorem loadRecords_present {records : List Record}
    (hread : ∀ r ∈ records, ∃ v, reparse F ord r.value = .ok v)
    (hnodup : (records.map Record.key).Nodup) {r : Record} (hr : r ∈ records) {ms : UInt64}
    (hms : r.expireAtMs = some ms) :
    (∃ e, ((loadRecords F ord currentTime records).runAt now Store.empty).2.live now.instant
      r.key = some e) ↔ ms > currentTime := by
  rw [loadRecords_eq F ord currentTime records fun q hq =>
    let ⟨_, hv⟩ := hread q hq
    ⟨_, recordStep_read F ord currentTime hv, stepOf_ne_eof _ _ _⟩]
  obtain ⟨before, after, rfl⟩ := List.append_of_mem hr
  rw [List.map_append, List.map_cons] at hnodup
  obtain ⟨hnot, -⟩ := List.nodup_cons.mp (List.nodup_middle.mp hnodup)
  rw [List.mem_append, not_or] at hnot
  obtain ⟨v, hv⟩ := hread r hr
  -- the records before leave the key absent, the records after leave it as it then is
  obtain ⟨s₁, hrun₁, hlive₁⟩ := forM_other F ord currentTime now
    (fun q hq => hread q (List.mem_append_left _ hq)) hnot.1 now.instant Store.empty
  have hrun₂ := recordAct_run F ord currentTime now hv hms s₁
  obtain ⟨s', hrun', hlive'⟩ := forM_other F ord currentTime now
    (fun q hq => hread q (List.mem_append_right _ (List.mem_cons_of_mem _ hq))) hnot.2 now.instant
    (if ms > currentTime then
      s₁.put r.key (some v) (some (now.instant + fromMillis (ms - currentTime))) else s₁)
  have hloop : (forM (before ++ r :: after) (recordAct F ord currentTime)).runAt now Store.empty =
      (.ok (), s') := by
    rw [List.forM_append, runAt_bind_ok now hrun₁, List.forM_cons, runAt_bind_ok now hrun₂, hrun']
  rw [runAt_bind_ok now hloop]
  show (∃ e, s'.live now.instant r.key = some e) ↔ _
  rw [hlive']
  constructor
  · rintro ⟨e, he⟩
    by_contra hearly
    rw [if_neg hearly, hlive₁, Store.live_empty] at he
    cases he
  · intro hlater
    have hleft : 0 < fromMillis (ms - currentTime) := by
      have hlt := UInt64.lt_iff_toNat_lt.mp hlater
      rw [fromMillis, UInt64.toNat_sub_of_le _ _ (UInt64.le_of_lt hlater)]
      omega
    rw [if_pos hlater, Store.live_put_self]
    exact ⟨_, liveOf_ttl now.instant v hleft⟩

end Records

/-! ### Saved and loaded -/

section Saved

variable {F : FloatText} (hF : F.RoundTrips) {s : Store} (h : Visited F s) (ord : IterOrder)
  {saved : Reading} (hfits : FitsAt s saved.instant) {fs : FileSystem} {path : PathBuf}
  (hread : fs.read path = some (savedBytes F ord saved (s.evicted saved.instant)))
  (hlen : (savedBytes F ord saved (s.evicted saved.instant)).length ≤ isizeMax)
include hF h hfits hread hlen

/-- A load gives a volatile key exactly if the sum in its record is later than
the Unix time of the load. -/
theorem loaded_iff {key : Str} {e : Entry} {d : Instant}
    (he : s.live saved.instant key = some e) (hd : e.deadline = some d) (loaded : Reading) :
    (∃ e', ((loadFromFile F fs path).runAt loaded Store.empty).2.live loaded.instant key =
      some e') ↔ saved.unixMs + UInt64.ofNat (asMillis (d - saved.instant)) > loaded.unixMs := by
  have hs := visited_inv h
  have hperm := ord.data_perm (s.evicted saved.instant).data
  have hmem : (key, e.value) ∈ ord.data (s.evicted saved.instant).data :=
    (mem_evicted hperm key e.value).mpr ⟨e, he, rfl⟩
  have hexp : (s.evicted saved.instant).expirations[key]? = some d := by
    rw [Store.evicted_expirations hs, he]
    exact hd
  have hrecord : (savedRecord saved (s.evicted saved.instant) (key, e.value)).expireAtMs =
      some (saved.unixMs + UInt64.ofNat (asMillis (d - saved.instant))) := by
    rw [savedRecord, hexp]
    rfl
  have hnodup : (((ord.data (s.evicted saved.instant).data).map
      (savedRecord saved (s.evicted saved.instant))).map Record.key).Nodup := by
    rw [List.map_map]
    exact ExtTreeMap.nodup_fst_toList _ _ hperm
  rw [loadFromFile_saved F ord saved hfits hread hlen, runAt_bind, runAt_unixNow]
  refine loadRecords_present F ord loaded.unixMs loaded ?_ hnodup (List.mem_map_of_mem hmem) hrecord
  intro r hr
  obtain ⟨⟨j, v⟩, hv, rfl⟩ := List.mem_map.mp hr
  obtain ⟨e', he', rfl⟩ := (mem_evicted hperm j v).mp hv
  obtain ⟨v', hv', -⟩ := reparse_same ord (Store.value_of_live hs he') hF
  exact ⟨v', hv'⟩

end Saved

/-- A key that was given `ms` milliseconds at `t₀` outlives a save, with a sum
that fits and every load before its deadline, exactly when the Unix time of the
save and what is left to the key fit in 64 bits. Otherwise no load from the save
on brings it back. -/
theorem saved_deadline (F : FloatText) (hF : F.RoundTrips) (s : Store) (h : Visited F s)
    (ord : IterOrder) (path : PathBuf) (fs fs' : FileSystem) (s' : Store) (bytes : Bytes)
    (saved : Reading) (hsave : (saveToFile F ord path fs).runAt saved s = (.ok fs', s'))
    (hread : fs'.read path = some bytes) (hlen : bytes.length ≤ isizeMax)
    (hfits : FitsAt s saved.instant) (key : Str) (e : Entry) (t₀ : Instant) (ms : UInt64)
    (he : s.live saved.instant key = some e)
    (hdeadline : e.deadline = some (t₀ + fromMillis ms)) (hclock : t₀ ≤ saved.instant) :
    let left := asMillis (t₀ + fromMillis ms - saved.instant)
    let fits := saved.unixMs.toNat * 1000000 + (t₀ + ms.toNat * 1000000 - saved.instant) <
      2 ^ 64 * 1000000
    let present (loaded : Reading) := ∃ e', ((loadFromFile F fs' path).runAt loaded
      Store.empty).2.live loaded.instant key = some e'
    ((saved.unixMs.toNat + left < 2 ^ 64 ∧
        ∀ loaded : Reading, loaded.unixMs.toNat < saved.unixMs.toNat + left → present loaded) ↔
      fits) ∧
    ∀ loaded : Reading, saved.unixMs ≤ loaded.unixMs →
      loaded.unixMs.toNat < saved.unixMs.toNat + left → (present loaded ↔ fits) := by
  intro left fits present
  obtain ⟨fs₀, hrun, hread₀, -⟩ := saveToFile_run F ord saved (visited_inv h) path fs
  obtain rfl : fs₀ = fs' := Except.ok.inj (Prod.mk.inj (hrun.symm.trans hsave)).1
  obtain rfl := Option.some.inj (hread.symm.trans hread₀)
  have hpresent : ∀ loaded, present loaded ↔ saved.unixMs + UInt64.ofNat left > loaded.unixMs :=
    fun loaded => loaded_iff hF h ord hfits hread hlen he hdeadline loaded
  have hfit : saved.unixMs.toNat + left < 2 ^ 64 ↔ fits := unix_fits saved.unixMs.toNat _
  have hleft : left < 2 ^ 64 := (asMillis_left ms hclock).trans_lt ms.toNat_lt
  have hsound : fits → ∀ loaded : Reading, loaded.unixMs.toNat < saved.unixMs.toNat + left →
      present loaded := by
    intro hf loaded hbefore
    refine (hpresent loaded).mpr (UInt64.lt_iff_toNat_lt.mpr ?_)
    rwa [toNat_sum (hfit.mpr hf)]
  refine ⟨⟨fun hall => hfit.mp hall.1, fun hf => ⟨hfit.mpr hf, hsound hf⟩⟩, ?_⟩
  intro loaded hlater hbefore
  refine ⟨fun hkey => ?_, fun hf => hsound hf loaded hbefore⟩
  by_contra hover
  have hwrapped := sum_wrapped hleft (Nat.le_of_not_lt fun hlt => hover (hfit.mp hlt))
  have hlate := (hpresent loaded).mp hkey
  exact absurd (UInt64.lt_of_lt_of_le hwrapped hlater) (UInt64.not_lt.mpr (UInt64.le_of_lt hlate))

/-! ### A short and the longest time to live -/

/-- What `SET k "" PX ms` leaves in an empty store. -/
def volatileFor (ms : UInt64) : Store :=
  (((Command.set (Str.lit "k") [] (some ms) .none).execute bitText .sorted []).runAt ⟨0, 0⟩
    Store.empty).2

section Volatile

variable (ms : UInt64)

theorem volatileFor_eq : volatileFor ms =
    Store.empty.put (Str.lit "k") (some (.string [])) (some (0 + fromMillis ms)) :=
  congrArg Prod.snd (handleSet_run ⟨0, 0⟩ Store.empty (Str.lit "k") [] (some ms))

theorem visited_volatileFor : Visited bitText (volatileFor ms) := by
  have hparse := parse_set_px bitText (bulkToString_bulk (Str.lit "k")) (bulkToU64_displayU64 ms)
    (show bulkToBytes (bulk []) = .ok [] from rfl)
  exact .command _ .sorted [] ⟨0, 0⟩ _ _ .empty hparse

theorem volatileFor_fits (t : Instant) : FitsAt (volatileFor ms) t := by
  have hinv : (volatileFor ms).Inv StoredValue.Fits := by
    rw [volatileFor_eq]
    apply Store.inv_put (Store.inv_empty _)
    · intro value hv
      rw [← Option.some.inj hv]
      trivial
    · simp
  exact fun key e he => Store.value_of_live hinv he

theorem volatileFor_live (h : 0 < fromMillis ms) : (volatileFor ms).live 0 (Str.lit "k") =
    some ⟨.string [], some (0 + fromMillis ms)⟩ := by
  rw [volatileFor_eq, Store.live_put_self]
  exact liveOf_ttl 0 (.string []) h

theorem volatileFor_saved : ∃ fs', (saveToFile bitText .sorted (Str.utf8 "d.rdb") .empty).runAt
      ⟨0, 77⟩ (volatileFor ms) = (.ok fs', (volatileFor ms).evicted 0) ∧
    fs'.read (Str.utf8 "d.rdb") =
      some (savedBytes bitText .sorted ⟨0, 77⟩ ((volatileFor ms).evicted 0)) := by
  obtain ⟨fs', hsave, hread, -⟩ := saveToFile_run bitText .sorted ⟨0, 77⟩
    (visited_inv (visited_volatileFor ms)) (Str.utf8 "d.rdb") .empty
  exact ⟨fs', hsave, hread⟩

end Volatile

/-- Five milliseconds, saved at once and loaded three later. -/
theorem saved_deadline_short : ∃ fs' s',
    (saveToFile bitText .sorted (Str.utf8 "d.rdb") .empty).runAt ⟨0, 77⟩ (volatileFor 5) =
      (.ok fs', s') ∧
    ∃ e, ((loadFromFile bitText fs' (Str.utf8 "d.rdb")).runAt ⟨9, 80⟩ Store.empty).2.live 9
      (Str.lit "k") = some e := by
  obtain ⟨fs', hsave, hread⟩ := volatileFor_saved 5
  have hlen : (savedBytes bitText .sorted ⟨0, 77⟩ ((volatileFor 5).evicted 0)).length = 77 := by
    decide +kernel
  have hall := saved_deadline bitText bitText_roundTrips _ (visited_volatileFor 5) .sorted
    (Str.utf8 "d.rdb") .empty fs' _ _ ⟨0, 77⟩ hsave hread (hlen.le.trans (by decide))
    (volatileFor_fits 5 0) (Str.lit "k") _ 0 5 (volatileFor_live 5 (by decide)) rfl (Nat.le_refl 0)
  exact ⟨fs', _, hsave, (hall.1.mpr (by decide)).2 ⟨9, 80⟩ (by decide)⟩

/-- SET k "" with the longest TTL that PX accepts, saved and loaded at one
reading of the clocks: the sum wraps, and the key is gone. -/
theorem saved_deadline_longest :
    tryFrom bitText [bulk (Str.utf8 "SET"), bulk (Str.utf8 "k"), bulk [], bulk (Str.utf8 "PX"),
      bulk (Str.utf8 "18446744073709551615")] =
        .ok (.set (Str.lit "k") [] (some 18446744073709551615) .none) ∧
    (volatileFor 18446744073709551615).live 0 (Str.lit "k") =
      some ⟨.string [], some (0 + fromMillis 18446744073709551615)⟩ ∧
    ∃ fs' s', (saveToFile bitText .sorted (Str.utf8 "d.rdb") .empty).runAt ⟨0, 77⟩
        (volatileFor 18446744073709551615) = (.ok fs', s') ∧
      2 ^ 64 ≤ 77 + asMillis (fromMillis 18446744073709551615) ∧
      ((loadFromFile bitText fs' (Str.utf8 "d.rdb")).runAt ⟨0, 77⟩ Store.empty).2.live 0
        (Str.lit "k") = none := by
  have hlive := volatileFor_live 18446744073709551615 (by decide)
  obtain ⟨fs', hsave, hread⟩ := volatileFor_saved 18446744073709551615
  have hlen : (savedBytes bitText .sorted ⟨0, 77⟩
      ((volatileFor 18446744073709551615).evicted 0)).length = 77 := by
    decide +kernel
  have hload := loaded_iff bitText_roundTrips (visited_volatileFor 18446744073709551615) .sorted
    (volatileFor_fits 18446744073709551615 0) hread (hlen.le.trans (by decide)) hlive rfl ⟨0, 77⟩
  refine ⟨parse_set_px bitText rfl (bulkToU64_of_parse (by decide)) rfl, hlive, fs', _, hsave,
    by decide, ?_⟩
  by_contra hsome
  obtain ⟨e, he⟩ := Option.ne_none_iff_exists'.mp hsome
  exact absurd (hload.mp ⟨e, he⟩) (by decide)

end FireRedis
