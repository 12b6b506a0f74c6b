import FireRedis.Persistence.Snapshot
import FireRedis.Store.Fill
import FireRedis.Store.Keeps

/-!
# What a load gives back

A value is read back as the same value, a record of a key becomes the entry of
that key, and the loaded store keeps the store invariant. A save evicts first:
its records are the live entries.
-/

namespace FireRedis
open Std RdbSerializer RdbDeserializer

/-! ### Values that are read back -/

theorem readBack_ok {F : FloatText} {items items' : List (Bytes × F64)}
    (h : items.mapM (readBack F) = .ok items') :
    items'.map Prod.fst = items.map Prod.fst := by
  induction items generalizing items' with
  | nil =>
    obtain rfl : [] = items' := Except.ok.inj h
    rfl
  | cons e items ih =>
    rw [List.mapM_cons] at h
    cases he : readBack F e with
    | error f =>
      rw [he] at h
      cases h
    | ok e' =>
      have hfst : e'.1 = e.1 := by
        rw [readBack] at he
        split at he
        · rw [← Except.ok.inj he]
        · cases he
      cases hm : items.mapM (readBack F) with
      | error f =>
        rw [he, hm] at h
        cases h
      | ok items₀ =>
        rw [he, hm] at h
        obtain rfl : e' :: items₀ = items' := Except.ok.inj h
        rw [List.map_cons, List.map_cons, ih hm, hfst]

theorem readBack_same {F : FloatText} (hF : F.RoundTrips) (items : List (Bytes × F64)) :
    ∃ items', items.mapM (readBack F) = .ok items' ∧ SortedSet.SameItems items items' := by
  induction items with
  | nil => exact ⟨[], rfl, List.Forall₂.nil⟩
  | cons e items ih =>
    obtain ⟨items', hm, hsame⟩ := ih
    obtain ⟨y, hy, hrank⟩ := hF e.2
    have he : readBack F e = .ok (e.1, y) := by rw [readBack, hy]
    refine ⟨(e.1, y) :: items', ?_, List.Forall₂.cons ⟨rfl, hrank⟩ hsame⟩
    rw [List.mapM_cons, he, hm]
    rfl

theorem foldl_insertScore {items : List (Bytes × F64)} (hnodup : (items.map Prod.fst).Nodup)
    {z : SortedSet} (hnew : ∀ e ∈ items, z.scores[e.1]? = none) :
    items.foldl insertScore z = z.insertAll items := by
  induction items generalizing z with
  | nil => rfl
  | cons e items ih =>
    obtain ⟨hne, htail⟩ := List.nodup_cons.mp hnodup
    have hinsert : insertScore z e = Store.zInsert e.2 e.1 z := by
      rw [Store.zInsert, hnew e (List.mem_cons_self ..)]
      rfl
    have hstep : ∀ e' ∈ items, (Store.zInsert e.2 e.1 z).scores[e'.1]? = none := by
      intro e' he'
      have hkey : e.1 ≠ e'.1 := fun h => hne (List.mem_map.mpr ⟨e', he', h.symm⟩)
      have hold := hnew e' (List.mem_cons_of_mem _ he')
      simp [Store.zInsert, ExtTreeMap.getElem?_insert, hkey, hold]
    rw [List.foldl_cons, hinsert]
    exact ih htail hstep

theorem foldl_insertScore_empty {items : List (Bytes × F64)}
    (hnodup : (items.map Prod.fst).Nodup) :
    items.foldl insertScore ⟨∅, ∅⟩ = SortedSet.insertAll items ⟨∅, ∅⟩ :=
  foldl_insertScore hnodup fun e _ => by simp

section Values

variable {F : FloatText} (ord : IterOrder) {v : StoredValue} (hv : v.WellFormed)
include hv

theorem reparse_wellFormed {v' : StoredValue} (h : reparse F ord v = .ok v') :
    v'.WellFormed := by
  cases v with
  | sortedSet z =>
    obtain ⟨hne, hz⟩ : z.scores.isEmpty = false ∧ z.Consistent := hv
    cases hm : (ord.scores z.scores).mapM (readBack F) with
    | error e =>
      rw [reparse, hm] at h
      cases h
    | ok items =>
      rw [reparse, hm] at h
      obtain rfl : .sortedSet (items.foldl insertScore ⟨∅, ∅⟩) = v' := Except.ok.inj h
      have hfst := readBack_ok hm
      have hperm := ord.scores_perm z.scores
      have hnodup : (items.map Prod.fst).Nodup := by
        rw [hfst]
        exact ExtTreeMap.nodup_fst_toList z.scores _ hperm
      rw [foldl_insertScore_empty hnodup]
      refine ⟨?_, SortedSet.consistent_insertAll items SortedSet.consistent_empty⟩
      obtain ⟨m, x, hx⟩ := (ExtTreeMap.isEmpty_eq_false_iff_exists z.scores).mp hne
      have hmem : (m, x) ∈ ord.scores z.scores :=
        hperm.mem_iff.mpr (ExtTreeMap.mem_toList_iff_getElem?_eq_some.mpr hx)
      have hkey : m ∈ items.map Prod.fst := by
        rw [hfst]
        exact List.mem_map_of_mem hmem
      obtain ⟨⟨m', y⟩, hy, rfl⟩ := List.mem_map.mp hkey
      rw [ExtTreeMap.isEmpty_eq_false_iff_exists, SortedSet.insertAll_scores]
      exact ⟨m', y, (ExtTreeMap.getElem?_foldl_insert items hnodup ∅ m' y).mpr (Or.inl hy)⟩
  | _ =>
    rw [← Except.ok.inj h]
    exact hv

theorem reparse_same (hF : F.RoundTrips) : ∃ v', reparse F ord v = .ok v' ∧ v.Same v' := by
  cases v with
  | sortedSet z =>
    obtain ⟨-, hz⟩ : z.scores.isEmpty = false ∧ z.Consistent := hv
    obtain ⟨items, hm, hsame⟩ := readBack_same hF (ord.scores z.scores)
    have hperm := ord.scores_perm z.scores
    have hnodup : (items.map Prod.fst).Nodup := by
      rw [hsame.fst]
      exact ExtTreeMap.nodup_fst_toList z.scores _ hperm
    refine ⟨.sortedSet (items.foldl insertScore ⟨∅, ∅⟩), by rw [reparse, hm]; rfl, ?_⟩
    rw [foldl_insertScore_empty hnodup]
    exact SortedSet.same_insertAll hz hperm hsame
  | _ => exact ⟨_, rfl, StoredValue.Same.refl _⟩

end Values

/-! ### Records that become entries -/

section Records

variable (F : FloatText) (ord : IterOrder) (currentTime : UInt64) (now : Reading)

/-- The step for a record whose value is read back as `v`. -/
def stepOf (r : Record) (v : StoredValue) : LoadStep :=
  match r.expireAtMs with
  | none => .restore r.key v
  | some ms => if ms > currentTime then .setWithTtl r.key v (ms - currentTime) else .skip

theorem recordStep_read {r : Record} {v : StoredValue} (hv : reparse F ord r.value = .ok v) :
    recordStep F ord currentTime r = .ok (stepOf currentTime r v) := by
  rw [recordStep, hv, stepOf]
  cases r.expireAtMs <;> rfl

theorem stepOf_ne_eof (r : Record) (v : StoredValue) :
    stepOf currentTime r v ≠ .eof := by
  rw [stepOf]
  cases r.expireAtMs with
  | none => exact nofun
  | some ms =>
    show (if ms > currentTime then _ else _) ≠ _
    split <;> exact nofun

/-- The value that a step stores. -/
def LoadStep.stored : LoadStep → Option StoredValue
  | .restore _ value => some value
  | .setWithTtl _ value _ => some value
  | _ => none

theorem stored_stepOf {r : Record} {v w : StoredValue}
    (h : LoadStep.stored (stepOf currentTime r v) = some w) : v = w := by
  unfold stepOf at h
  cases hms : r.expireAtMs with
  | none =>
    rw [hms] at h
    exact Option.some.inj h
  | some ms =>
    rw [hms] at h
    by_cases hlater : ms > currentTime
    · exact Option.some.inj ((congrArg LoadStep.stored (if_pos hlater)).symm.trans h)
    · cases (congrArg LoadStep.stored (if_neg hlater)).symm.trans h

theorem stored_recordStep {r : Record} {step : LoadStep} {v : StoredValue}
    (h : recordStep F ord currentTime r = .ok step) (hv : LoadStep.stored step = some v) :
    reparse F ord r.value = .ok v := by
  cases hr : reparse F ord r.value with
  | error e =>
    rw [recordStep, hr] at h
    cases h
  | ok value =>
    rw [recordStep_read F ord currentTime hr] at h
    rw [← Except.ok.inj h] at hv
    exact congrArg Except.ok (stored_stepOf currentTime hv)

theorem keeps_act {P : StoredValue → Prop} (step : LoadStep)
    (hstep : ∀ v, LoadStep.stored step = some v → P v) : Keeps P step.act := by
  intro now s hs
  cases step with
  | restore key value =>
    rw [LoadStep.act, Store.restore_run]
    exact ⟨Store.inv_put hs key hstep (by simp), NewDeadlines.put fun _ hd => Or.inl hd⟩
  | setWithTtl key value ttl =>
    rw [LoadStep.act, Store.setWithTtl_run]
    exact ⟨Store.inv_put hs key hstep (by simp),
      NewDeadlines.put fun _ hd => Or.inr ⟨ttl, (Option.some.inj hd).symm⟩⟩
  | _ => exact Keeps.pure () now s hs

/-- A load of well-formed values keeps the store well formed, also if it stops
at a score that is not read back. -/
theorem keeps_loadRecords (records : List Record) (hwf : ∀ r ∈ records, r.value.WellFormed) :
    Keeps StoredValue.WellFormed (loadRecords F ord currentTime records) := by
  induction records with
  | nil => exact Keeps.pure _
  | cons r records ih =>
    have htail := ih fun r hr => hwf r (List.mem_cons_of_mem _ hr)
    rw [loadRecords]
    rcases hstep : recordStep F ord currentTime r with (msg | p) | step
    · exact Keeps.pure _
    · exact Keeps.fault p
    · by_cases heof : step = .eof
      · rw [heof]
        exact Keeps.pure _
      · rw [follow_ok heof]
        apply Keeps.bind _ fun _ => htail
        apply keeps_act
        intro v hv
        exact reparse_wellFormed ord (hwf r (List.mem_cons_self ..))
          (stored_recordStep F ord currentTime hstep hv)

/-- The deadline that a record gives its key. -/
def newDeadline (r : Record) : Option Instant :=
  r.expireAtMs.map fun ms => now.instant + fromMillis (ms - currentTime)

theorem recordStep_run {r : Record} {v : StoredValue} (hv : reparse F ord r.value = .ok v)
    (hlater : ∀ ms, r.expireAtMs = some ms → ms > currentTime) :
    ∃ step, recordStep F ord currentTime r = .ok step ∧ step ≠ .eof ∧
      ∀ s : Store, s.expirations[r.key]? = none → step.act.runAt now s =
        (.ok (), s.put r.key (some v) (newDeadline currentTime now r)) := by
  refine ⟨_, recordStep_read F ord currentTime hv, stepOf_ne_eof _ _ _, ?_⟩
  intro s hnew
  unfold newDeadline stepOf
  cases hms : r.expireAtMs with
  | none =>
    show StoreM.runAt (LoadStep.act (.restore r.key v)) now s = _
    rw [LoadStep.act, Store.restore_run, hnew]
    rfl
  | some ms =>
    show StoreM.runAt (LoadStep.act (if ms > currentTime then _ else _)) now s = _
    rw [if_pos (hlater ms hms)]
    rfl

/-- The call on the store for a record that is read back. -/
def recordAct (r : Record) : StoreM Unit :=
  match recordStep F ord currentTime r with
  | .ok step => step.act
  | .error _ => return ()

theorem loadRecords_eq (records : List Record)
    (h : ∀ r ∈ records, ∃ step, recordStep F ord currentTime r = .ok step ∧ step ≠ .eof) :
    loadRecords F ord currentTime records =
      forM records (recordAct F ord currentTime) >>= fun _ => return .ok () := by
  induction records with
  | nil => rfl
  | cons r records ih =>
    obtain ⟨step, hstep, hne⟩ := h r (List.mem_cons_self ..)
    have htail := ih fun q hq => h q (List.mem_cons_of_mem _ hq)
    have hact : recordAct F ord currentTime r = step.act := by rw [recordAct, hstep]
    rw [loadRecords, hstep, follow_ok hne, htail, List.forM_cons, hact, bind_assoc]

end Records

/-! ### Saving -/

section Save

variable (F : FloatText) (ord : IterOrder) (now : Reading)

/-- The record of a key in a store without expired keys. -/
def savedRecord (D : Store) (e : Str × StoredValue) : Record :=
  ⟨e.1, e.2, D.expirations[e.1]?.map fun d =>
    now.unixMs + UInt64.ofNat (asMillis (d - now.instant))⟩

/-- The file that a save writes for a store without expired keys. -/
def savedBytes (D : Store) : Bytes :=
  fileBytes F ord (now.unixMs / 1000) D.data.size D.expirations.size
    ((ord.data D.data).map (savedRecord now D))

theorem record_run {D : Store}
    (hD : ∀ (key : Str) d, D.expirations[key]? = some d → now.instant < d)
    (e : Str × StoredValue) :
    (record D.expirations e.1 e.2).runAt now D = (.ok (some (savedRecord now D e)), D) := by
  rw [record, savedRecord]
  cases hd : D.expirations[e.1]? with
  | none => rfl
  | some d =>
    have hlt : ¬ d ≤ now.instant := Nat.not_le.mpr (hD e.1 d hd)
    simp [runAt_bind, hlt, Except.map]

variable {P : StoredValue → Prop} {s : Store} (hs : s.Inv P)
include hs

theorem evicted_later (key : Str) (d : Instant)
    (h : (s.evicted now.instant).expirations[key]? = some d) : now.instant < d := by
  rw [Store.evicted_expirations hs] at h
  obtain ⟨e, he, hd⟩ := Option.bind_eq_some_iff.mp h
  exact (liveOf_eq_some.mp he).2.2 d hd

theorem save_run : (save F ord).runAt now s =
    (.ok (savedBytes F ord now (s.evicted now.instant)), s.evicted now.instant) := by
  obtain ⟨m, hevict⟩ := Store.evictExpired_run now s
  have hsnapshot : Store.snapshot.runAt now s =
      (.ok ((s.evicted now.instant).data, (s.evicted now.instant).expirations),
        s.evicted now.instant) := by
    rw [Store.snapshot, runAt_bind_ok now hevict]
    rfl
  have hrecords := runAt_mapM now (s.evicted now.instant)
    (ord.data (s.evicted now.instant).data)
    fun e _ => record_run now (evicted_later now hs) e
  have hfilter : ((ord.data (s.evicted now.instant).data).map fun e =>
      some (savedRecord now (s.evicted now.instant) e)).filterMap id =
        (ord.data (s.evicted now.instant).data).map (savedRecord now (s.evicted now.instant)) := by
    rw [List.filterMap_map, Function.id_comp]
    exact congrFun List.filterMap_eq_map _
  rw [save, runAt_bind, runAt_unixNow]
  show StoreM.runAt (Store.snapshot >>= _) now s = _
  rw [runAt_bind_ok now hsnapshot]
  show StoreM.runAt (List.mapM _ _ >>= _) now _ = _
  rw [runAt_bind_ok now hrecords, hfilter]
  rfl

theorem saveToFile_run (path : PathBuf) (fs : FileSystem) :
    ∃ fs', (saveToFile F ord path fs).runAt now s = (.ok fs', s.evicted now.instant) ∧
      fs'.read path = some (savedBytes F ord now (s.evicted now.instant)) ∧
      ∀ p, p ≠ path → p ≠ withExtension path "tmp" → fs'.names p = fs.names p := by
  obtain ⟨hname, hempty⟩ := FileSystem.create_names fs (withExtension path "tmp")
  rw [saveToFile, runAt_bind_ok now (save_run F ord now hs)]
  refine ⟨_, rfl, ?_, ?_⟩
  · rw [FileSystem.read_rename _ (by rw [FileSystem.names_write, hname]),
      FileSystem.contents_write, if_pos rfl, hempty]
    rfl
  · intro p hpath htemp
    rw [FileSystem.rename_names_ne _ htemp hpath, FileSystem.names_write,
      FileSystem.create_names_ne _ htemp]

/-! ### Loading what was saved -/

/-- The live values can be allocated. -/
def FitsAt (s : Store) (t : Instant) : Prop := ∀ key e, s.live t key = some e → e.value.Fits

omit hs in
theorem loadFromFile_saved (hfits : FitsAt s now.instant) {fs : FileSystem} {path : PathBuf}
    (hread : fs.read path = some (savedBytes F ord now (s.evicted now.instant)))
    (hlen : (savedBytes F ord now (s.evicted now.instant)).length ≤ isizeMax) :
    loadFromFile F fs path = unixNow >>= fun currentTime =>
      loadRecords F ord currentTime ((ord.data (s.evicted now.instant).data).map
        (savedRecord now (s.evicted now.instant))) := by
  rw [loadFromFile, hread]
  apply load_file
  · intro r hr
    obtain ⟨⟨key, v⟩, hv, rfl⟩ := List.mem_map.mp hr
    obtain ⟨e, he, rfl⟩ := (mem_evicted (ord.data_perm _) key v).mp hv
    exact hfits key e he
  · exact hlen

omit hs in
theorem keeps_loadSaved {s : Store} (hs : s.Inv StoredValue.WellFormed)
    (hfits : FitsAt s now.instant) {fs : FileSystem} {path : PathBuf}
    (hread : fs.read path = some (savedBytes F ord now (s.evicted now.instant)))
    (hlen : (savedBytes F ord now (s.evicted now.instant)).length ≤ isizeMax) :
    Keeps StoredValue.WellFormed (loadFromFile F fs path) := by
  rw [loadFromFile_saved F ord now hfits hread hlen]
  intro now' s' hs'
  rw [runAt_bind, runAt_unixNow]
  apply keeps_loadRecords _ _ _ _ _ now' s' hs'
  intro r hr
  obtain ⟨⟨key, v⟩, hv, rfl⟩ := List.mem_map.mp hr
  obtain ⟨e, he, rfl⟩ := (mem_evicted (ord.data_perm _) key v).mp hv
  exact Store.value_of_live hs he

omit hs in
/-- A whole number of milliseconds survives the way through Unix time. -/
theorem savedDeadline {d : Instant} (hlt : now.instant < d)
    (hwhole : 1000000 ∣ d - now.instant)
    (hunix : now.unixMs.toNat + asMillis (d - now.instant) < 2 ^ 64) :
    now.unixMs + UInt64.ofNat (asMillis (d - now.instant)) > now.unixMs ∧
      now.instant + fromMillis (now.unixMs + UInt64.ofNat (asMillis (d - now.instant)) -
        now.unixMs) = d := by
  obtain ⟨hpos, hexact⟩ := asMillis_exact hlt hwhole
  generalize asMillis (d - now.instant) = k at *
  have hofNat : (UInt64.ofNat k).toNat = k := by
    rw [UInt64.toNat_ofNat']
    omega
  have hsum : (now.unixMs + UInt64.ofNat k).toNat = now.unixMs.toNat + k := by
    rw [UInt64.toNat_add, hofNat]
    omega
  have hdiff : now.unixMs + UInt64.ofNat k - now.unixMs = UInt64.ofNat k := by
    rw [UInt64.add_comm]
    exact UInt64.add_sub_cancel _ _
  constructor
  · show now.unixMs < now.unixMs + UInt64.ofNat k
    rw [UInt64.lt_iff_toNat_lt, hsum]
    omega
  · rw [hdiff, fromMillis, hofNat]
    exact hexact

omit hs in
/-- One saved record: the value that is read back, and the deadline that its time gives. -/
theorem recordStep_saved {s : Store} (hs : s.Inv StoredValue.WellFormed) (hF : F.RoundTrips)
    (hwhole : ∀ key e d, s.live now.instant key = some e → e.deadline = some d →
      1000000 ∣ d - now.instant)
    (hunix : ∀ key e d, s.live now.instant key = some e → e.deadline = some d →
      now.unixMs.toNat + asMillis (d - now.instant) < 2 ^ 64) {item : Str × StoredValue}
    (hitem : item ∈ ord.data (s.evicted now.instant).data) :
    ∃ v step, item.2.Same v ∧
      recordStep F ord now.unixMs (savedRecord now (s.evicted now.instant) item) = .ok step ∧
      step ≠ .eof ∧ ∀ s₀ : Store, s₀.expirations[item.1]? = none → step.act.runAt now s₀ =
        (.ok (), s₀.put item.1 (some v) ((s.live now.instant item.1).bind Entry.deadline)) := by
  obtain ⟨key, v⟩ := item
  have hperm := ord.data_perm (s.evicted now.instant).data
  obtain ⟨e, he, rfl⟩ := (mem_evicted hperm key v).mp hitem
  obtain ⟨v', hv', hsame⟩ := reparse_same ord (Store.value_of_live hs he) hF
  have hold : (s.evicted now.instant).expirations[key]? = e.deadline := by
    rw [Store.evicted_expirations hs, he]
    rfl
  have hsaved : ∀ d, e.deadline = some d → _ := fun d hd =>
    savedDeadline now ((liveOf_eq_some.mp he).2.2 d hd) (hwhole key e d he hd)
      (hunix key e d he hd)
  obtain ⟨step, hstep, hne, hrun⟩ := recordStep_run F ord now.unixMs now
    (r := savedRecord now (s.evicted now.instant) (key, e.value)) hv' (by
      intro ms hms
      obtain ⟨d, hd, rfl⟩ := Option.map_eq_some_iff.mp hms
      exact (hsaved d (hold.symm.trans hd)).1)
  have hnew : newDeadline now.unixMs now
      (savedRecord now (s.evicted now.instant) (key, e.value)) = e.deadline := by
    rw [newDeadline, savedRecord, hold]
    cases hd : e.deadline with
    | none => rfl
    | some d => exact congrArg some (hsaved d hd).2
  refine ⟨v', step, hsame, hstep, hne, fun s₀ hs₀ => ?_⟩
  rw [hrun s₀ hs₀, hnew, he]
  rfl

omit hs in
/-- A load at the clock reading of the save gives the live dataset again. -/
theorem reload {s : Store} (hs : s.Inv StoredValue.WellFormed) (hF : F.RoundTrips)
    (hfits : FitsAt s now.instant) {fs : FileSystem} {path : PathBuf}
    (hread : fs.read path = some (savedBytes F ord now (s.evicted now.instant)))
    (hlen : (savedBytes F ord now (s.evicted now.instant)).length ≤ isizeMax)
    (hwhole : ∀ key e d, s.live now.instant key = some e → e.deadline = some d →
      1000000 ∣ d - now.instant)
    (hunix : ∀ key e d, s.live now.instant key = some e → e.deadline = some d →
      now.unixMs.toNat + asMillis (d - now.instant) < 2 ^ 64) :
    ∃ s', (loadFromFile F fs path).runAt now Store.empty = (.ok (.ok ()), s') ∧
      Dataset.Related Eq (s.live now.instant) (s'.live now.instant) := by
  have hperm := ord.data_perm (s.evicted now.instant).data
  obtain ⟨s', hfill, hrelated⟩ := fill_related now Eq (fun d d' h hd => hd ▸ h) _ hperm
    (fun item => recordAct F ord now.unixMs (savedRecord now (s.evicted now.instant) item)) (by
      intro item hitem s₀ hs₀ hnew
      obtain ⟨v, step, hsame, hstep, -, hrun⟩ := recordStep_saved F ord now hs hF hwhole hunix hitem
      have hact : recordAct F ord now.unixMs
          (savedRecord now (s.evicted now.instant) item) = step.act := by
        rw [recordAct, hstep]
      have hput := hrun s₀ (hs₀.deadlines item.1 hnew)
      rw [← hact] at hput
      refine ⟨v, _, ⟨hsame, ?_⟩, hput⟩
      cases (s.live now.instant item.1).bind Entry.deadline with
      | none => exact Option.Rel.none
      | some d => exact Option.Rel.some rfl)
  refine ⟨s', ?_, hrelated⟩
  rw [loadFromFile_saved F ord now hfits hread hlen, runAt_bind, runAt_unixNow]
  show (loadRecords F ord now.unixMs _).runAt now Store.empty = _
  rw [loadRecords_eq, List.forM_map, runAt_bind_ok now hfill]
  · rfl
  · intro r hr
    obtain ⟨item, hitem, rfl⟩ := List.mem_map.mp hr
    obtain ⟨v, step, -, hstep, hne, -⟩ := recordStep_saved F ord now hs hF hwhole hunix hitem
    exact ⟨step, hstep, hne⟩

end Save

end FireRedis
