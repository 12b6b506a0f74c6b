import FireRedis.Base.Maps
import FireRedis.Base.Pool
import FireRedis.Commands.Execute
import FireRedis.Persistence.Rdb
import FireRedis.Store.Live

/-!
# A snapshot among running clients

A snapshot copies the values and then the deadlines, each map shard by shard.
Between the two readings of a key clients may change it. Where a deadline is
changed in that time only while the key has the value that was copied, the value
and the deadline were live together at some moment.
-/

namespace FireRedis
open Std Pool
open Program (Returns returns_pure)

/-- How the keys of a concurrent map are spread over its shards. -/
structure Shards where
  count : ℕ
  shard : Str → Fin count

namespace Store

/-- `iter().collect()`: each shard is read in one step. -/
def scan {V : Type} (iter : StoreM (ExtTreeMap Str V)) (shards : Shards) :
    List (Fin shards.count) → ExtTreeMap Str V → StoreM (ExtTreeMap Str V)
  | [], acc => return acc
  | i :: rest, acc => do
    let m ← iter
    scan iter shards rest (acc ∪ m.filter fun key _ => shards.shard key = i)

/-- `snapshot` with the shards of the two maps. -/
def snapshotShards (values deadlines : Shards) :
    StoreM (ExtTreeMap Str StoredValue × ExtTreeMap Str Instant) := do
  let _ ← evictExpired
  let data ← scan dataIter values (List.finRange values.count) ∅
  let expirations ← scan expirationsIter deadlines (List.finRange deadlines.count) ∅
  return (data, expirations)

def oneShard : Shards := ⟨1, fun _ => 0⟩

theorem getElem?_shard {V : Type} {shards : Shards} (acc m : ExtTreeMap Str V)
    (i : Fin shards.count) (key : Str) :
    (acc ∪ m.filter fun key _ => shards.shard key = i)[key]? =
      if shards.shard key = i then m[key]?.or acc[key]? else acc[key]? := by
  rw [ExtTreeMap.getElem?_union, ExtTreeMap.getElem?_filter']
  split <;> rename_i h <;> cases m[key]? <;> simp [h]

theorem scan_oneShard {V : Type} (iter : StoreM (ExtTreeMap Str V)) :
    scan iter oneShard (List.finRange oneShard.count) ∅ = iter := by
  have hwhole : ∀ (i : Fin oneShard.count) (m : ExtTreeMap Str V),
      ∅ ∪ m.filter (fun key _ => oneShard.shard key = i) = m := by
    intro i m
    apply ExtTreeMap.ext_getElem?
    intro key
    have hi : oneShard.shard key = i := Subsingleton.elim (α := Fin 1) _ _
    rw [getElem?_shard, if_pos hi, ExtTreeMap.getElem?_empty, Option.or_none]
  have hshards : List.finRange oneShard.count = [oneShard.shard (Str.lit "")] := rfl
  rw [hshards, scan]
  simp only [hwhole, scan, bind_pure]

/-- Where each map has one shard, the snapshot is the one taken alone. -/
theorem snapshotShards_one : snapshotShards oneShard oneShard = snapshot := by
  unfold snapshotShards
  rw [scan_oneShard, scan_oneShard]
  rfl

end Store

namespace Snapshots

abbrev Snapshot := ExtTreeMap Str StoredValue × ExtTreeMap Str Instant

/-- The value of the key has been read as `v`, its deadline has not been read yet. -/
inductive Timed (key : Str) (v : StoredValue) : StoreM Snapshot → Prop
  | other (c : Call) (k : c.Answer → StoreM Snapshot) (h : ∀ r, Timed key v (k r)) :
      Timed key v (.call c k)
  | deadline (k : ExtTreeMap Str Instant → StoreM Snapshot)
      (h : ∀ m, (k m).Returns fun r => r.1[key]? = some v ∧ r.2[key]? = m[key]?) :
      Timed key v (.call (.expirations .iter) k)

/-- The value of the key has not been read yet. -/
inductive Unread (key : Str) : StoreM Snapshot → Prop
  | other (c : Call) (k : c.Answer → StoreM Snapshot) (h : ∀ r, Unread key (k r)) :
      Unread key (.call c k)
  | value (k : ExtTreeMap Str StoredValue → StoreM Snapshot)
      (habsent : ∀ m, m[key]? = none → (k m).Returns fun r => r.1[key]? = none)
      (hvalue : ∀ m v, m[key]? = some v → Timed key v (k m)) :
      Unread key (.call (.data .iter) k)
  | fault (e : Panic) : Unread key (.fault e)

/-! ### What a scan does with one key -/

section Scan

variable {V : Type} {iter : StoreM (ExtTreeMap Str V)} {shards : Shards} {key : Str}

theorem scan_rest {rest : List (Fin shards.count)} (hrest : shards.shard key ∉ rest)
    (acc : ExtTreeMap Str V) :
    (Store.scan iter shards rest acc).Returns fun m => m[key]? = acc[key]? := by
  induction rest generalizing acc with
  | nil => exact returns_pure rfl
  | cons i rest ih =>
    have hi := List.ne_of_not_mem_cons hrest
    apply Returns.last
    intro m
    refine (ih (List.not_mem_of_not_mem_cons hrest) _).imp fun r hr => hr.trans ?_
    exact (Store.getElem?_shard acc m i key).trans (if_neg hi)

theorem timed_deadlines {data : ExtTreeMap Str StoredValue} {v : StoredValue}
    (hv : data[key]? = some v) {rest : List (Fin shards.count)} (hnodup : rest.Nodup)
    (hrest : shards.shard key ∈ rest) {acc : ExtTreeMap Str Instant} (hacc : acc[key]? = none) :
    Timed key v (do
      let expirations ← Store.scan expirationsIter shards rest acc
      return (data, expirations)) := by
  induction rest generalizing acc with
  | nil => cases hrest
  | cons i rest ih =>
    obtain ⟨hi, hnodup⟩ := List.nodup_cons.mp hnodup
    by_cases hkey : shards.shard key = i
    · subst hkey
      refine .deadline _ fun m => ?_
      refine (scan_rest hi _).bind fun expirations he => returns_pure ⟨hv, he.trans ?_⟩
      rw [Store.getElem?_shard acc m _ key, if_pos rfl, hacc, Option.or_none]
    · refine .other _ _ fun m => ih hnodup (List.mem_of_ne_of_mem hkey hrest) ?_
      exact (Store.getElem?_shard acc m i key).trans ((if_neg hkey).trans hacc)

theorem timed_values {v : StoredValue} {k : ExtTreeMap Str StoredValue → StoreM Snapshot}
    (hk : ∀ data, data[key]? = some v → Timed key v (k data)) {rest : List (Fin shards.count)}
    (hrest : shards.shard key ∉ rest) {acc : ExtTreeMap Str StoredValue}
    (hacc : acc[key]? = some v) : Timed key v (Store.scan dataIter shards rest acc >>= k) := by
  induction rest generalizing acc with
  | nil => exact hk acc hacc
  | cons i rest ih =>
    have hi := List.ne_of_not_mem_cons hrest
    refine .other _ _ fun m => ih (List.not_mem_of_not_mem_cons hrest) ?_
    exact (Store.getElem?_shard acc m i key).trans ((if_neg hi).trans hacc)

theorem unread_values {k : ExtTreeMap Str StoredValue → StoreM Snapshot}
    (habsent : ∀ data, data[key]? = none → (k data).Returns fun r => r.1[key]? = none)
    (hvalue : ∀ data v, data[key]? = some v → Timed key v (k data))
    {rest : List (Fin shards.count)} (hnodup : rest.Nodup) (hrest : shards.shard key ∈ rest)
    {acc : ExtTreeMap Str StoredValue} (hacc : acc[key]? = none) :
    Unread key (Store.scan dataIter shards rest acc >>= k) := by
  induction rest generalizing acc with
  | nil => cases hrest
  | cons i rest ih =>
    obtain ⟨hi, hnodup⟩ := List.nodup_cons.mp hnodup
    by_cases hkey : shards.shard key = i
    · subst hkey
      have hread : ∀ m : ExtTreeMap Str StoredValue,
          (acc ∪ m.filter fun j _ => shards.shard j = shards.shard key)[key]? = m[key]? := by
        intro m
        rw [Store.getElem?_shard, if_pos rfl, hacc, Option.or_none]
      refine .value _ (fun m hm => ?_) fun m v hm => ?_
      · exact (scan_rest hi _).bind fun data hd => habsent data (hd.trans ((hread m).trans hm))
      · exact timed_values (fun data hd => hvalue data v hd) hi ((hread m).trans hm)
    · refine .other _ _ fun m => ih hnodup (List.mem_of_ne_of_mem hkey hrest) ?_
      exact (Store.getElem?_shard acc m i key).trans ((if_neg hkey).trans hacc)

theorem unread_bind {α : Type} {p : StoreM α} {f : α → StoreM Snapshot}
    (h : ∀ a, Unread key (f a)) : Unread key (p >>= f) := by
  show Unread key (p.bind f)
  induction p with
  | done a => exact h a
  | fault e => exact .fault e
  | call c k ih => exact .other _ _ ih

theorem unread_snapshot (values deadlines : Shards) (key : Str) :
    Unread key (Store.snapshotShards values deadlines) := by
  refine unread_bind fun _ => unread_values (fun data hd => ?_) (fun data v hd => ?_)
    (List.nodup_finRange _) (List.mem_finRange _) ExtTreeMap.getElem?_empty
  · exact Returns.last fun _ => returns_pure hd
  · exact timed_deadlines hd (List.nodup_finRange _) (List.mem_finRange _)
      ExtTreeMap.getElem?_empty

end Scan

/-! ### The run -/

variable {ι : Type} [DecidableEq ι]

/-- What the parties end with; the snapshot is `none`. -/
def Result : Option ι → Type
  | none => Snapshot
  | some _ => Value

abbrev Parties (ι : Type) := Pool Call Call.Answer Panic Store (Result (ι := ι))

/-- The clients run any programs over the calls of the store. -/
def parties (values deadlines : Shards) (clients : ι → StoreM Value) (s : Store) : Parties ι where
  state := s
  progs
    | none => Store.snapshotShards values deadlines
    | some i => clients i

/-- The parties where each map has one shard. -/
def together (clients : ι → StoreM Value) (s : Store) : Parties ι where
  state := s
  progs
    | none => Store.snapshot
    | some i => clients i

omit [DecidableEq ι] in
theorem parties_oneShard (clients : ι → StoreM Value) (s : Store) :
    parties Store.oneShard Store.oneShard clients s = together clients s := by
  refine congrArg (Pool.mk s) (funext fun party => ?_)
  cases party with
  | none => exact Store.snapshotShards_one
  | some i => rfl

/-- A deadline is changed between the two readings of its key only while the key
has the value that was read. -/
def KeepsPairs (p : Parties ι) (party : Option ι) : Prop :=
  ∀ (key : Str) v t, Timed key v (p.progs none) →
    (advance Call.run party t p).state.expirations[key]? ≠ p.state.expirations[key]? →
    p.state.data[key]? = some v

/-- At some moment of the run the key had the value and the deadline. -/
def Held (start : Parties ι) (turns : List (Option ι × Reading)) (key : Str) (v : StoredValue)
    (d : Option Instant) : Prop :=
  ∃ earlier, earlier <+: turns ∧
    (schedule Call.run earlier start).state.data[key]? = some v ∧
    (schedule Call.run earlier start).state.expirations[key]? = d

/-- How far the snapshot is with one key. -/
inductive Progress (start : Parties ι) (key : Str) (turns : List (Option ι × Reading)) : Prop
  | unread (h : Unread key ((schedule Call.run turns start).progs none))
  | timed (v : StoredValue) (h : Timed key v ((schedule Call.run turns start).progs none))
      (hheld : Held start turns key v (schedule Call.run turns start).state.expirations[key]?)
  | read (h : ((schedule Call.run turns start).progs none).Returns fun r =>
      ∀ v, r.1[key]? = some v → Held start turns key v r.2[key]?)

section Step

variable {start : Parties ι} {key : Str} {turns : List (Option ι × Reading)}

theorem Held.later {v : StoredValue} {d : Option Instant} (h : Held start turns key v d)
    (turn : Option ι × Reading) : Held start (turns ++ [turn]) key v d := by
  obtain ⟨earlier, hprefix, hheld⟩ := h
  exact ⟨earlier, hprefix.trans (List.prefix_append ..), hheld⟩

theorem Held.now {v : StoredValue}
    (hv : (schedule Call.run turns start).state.data[key]? = some v) :
    Held start turns key v (schedule Call.run turns start).state.expirations[key]? :=
  ⟨turns, List.prefix_refl _, hv, rfl⟩

theorem data_of_expirations {t : Reading} {c : Call} {s : Store}
    (h : (Call.run t c s).2.expirations[key]? ≠ s.expirations[key]?) :
    (Call.run t c s).2.data = s.data := by
  match c with
  | .instantNow | .unixNow | .data _ => exact absurd rfl h
  | .expirations c => rfl

theorem advance_data {p : Parties ι} {party : Option ι} {t : Reading}
    (h : (advance Call.run party t p).state.expirations[key]? ≠ p.state.expirations[key]?) :
    (advance Call.run party t p).state.data = p.state.data := by
  cases hprog : p.progs party with
  | call c k =>
    rw [advance_state hprog] at h ⊢
    exact data_of_expirations h
  | done a => rw [advance_ended (by rw [hprog]; rfl)]
  | fault e => rw [advance_ended (by rw [hprog]; rfl)]

/-- The value and the deadline of the moment stay a pair that was held. -/
theorem Held.step {v : StoredValue} {turn : Option ι × Reading}
    (hheld : Held start turns key v (schedule Call.run turns start).state.expirations[key]?)
    (htimed : Timed key v ((schedule Call.run turns start).progs none))
    (hguard : KeepsPairs (schedule Call.run turns start) turn.1) :
    Held start (turns ++ [turn]) key v
      (schedule Call.run (turns ++ [turn]) start).state.expirations[key]? := by
  have hlast : schedule Call.run (turns ++ [turn]) start =
      advance Call.run turn.1 turn.2 (schedule Call.run turns start) :=
    schedule_append Call.run turns [turn] start
  by_cases hsame : (schedule Call.run (turns ++ [turn]) start).state.expirations[key]? =
      (schedule Call.run turns start).state.expirations[key]?
  · rw [hsame]
    exact hheld.later turn
  · refine Held.now ?_
    rw [hlast] at hsame ⊢
    rw [advance_data hsame]
    exact hguard key v turn.2 htimed hsame

theorem Progress.stay {turn : Option ι × Reading} (h : Progress start key turns)
    (hguard : KeepsPairs (schedule Call.run turns start) turn.1)
    (hsame : (schedule Call.run (turns ++ [turn]) start).progs none =
      (schedule Call.run turns start).progs none) : Progress start key (turns ++ [turn]) := by
  cases h with
  | unread h => exact .unread (hsame ▸ h)
  | timed v h hheld => exact .timed v (hsame ▸ h) (hheld.step h hguard)
  | read h =>
    refine .read ?_
    rw [hsame]
    exact h.imp fun r hr v hv => (hr v hv).later turn

theorem Progress.step {turn : Option ι × Reading} (h : Progress start key turns)
    (hguard : KeepsPairs (schedule Call.run turns start) turn.1) :
    Progress start key (turns ++ [turn]) := by
  have hlast : schedule Call.run (turns ++ [turn]) start =
      advance Call.run turn.1 turn.2 (schedule Call.run turns start) :=
    schedule_append Call.run turns [turn] start
  obtain ⟨party, t⟩ := turn
  cases party with
  | some i =>
    refine h.stay hguard ?_
    rw [hlast]
    exact advance_other (Option.some_ne_none i).symm t
  | none =>
    cases hprog : (schedule Call.run turns start).progs none with
    | done r | fault e =>
      refine h.stay hguard ?_
      rw [hlast]
      exact congrArg (Pool.progs · none) (advance_ended (by rw [hprog]; rfl) t)
    | call c k =>
      have hself : (schedule Call.run (turns ++ [(none, t)]) start).progs none =
          k (Call.run t c (schedule Call.run turns start).state).1 := by
        rw [hlast]
        exact advance_self hprog t
      cases h with
      | unread h =>
        rw [hprog] at h
        cases h with
        | other _ _ h => exact .unread (hself ▸ h _)
        | value _ habsent hvalue =>
          cases hv : (schedule Call.run turns start).state.data[key]? with
          | none =>
            refine .read ?_
            rw [hself]
            refine (habsent _ hv).imp fun r hr v hrv => ?_
            rw [hr] at hrv
            cases hrv
          | some v =>
            refine .timed v (hself ▸ hvalue _ v hv) ?_
            rw [hlast, advance_state hprog]
            exact (Held.now hv).later _
      | timed v h hheld =>
        have hstep := hheld.step h hguard
        rw [hprog] at h
        cases h with
        | other _ _ h => exact .timed v (hself ▸ h _) hstep
        | deadline _ h =>
          refine .read ?_
          rw [hself]
          refine (h _).imp fun r hr v' hv' => ?_
          obtain rfl := Option.some.inj (hr.1.symm.trans hv')
          rw [hr.2]
          exact hheld.later _
      | read h =>
        rw [hprog] at h
        refine .read ?_
        rw [hself]
        exact (h _).imp fun r hr v hv => (hr v hv).later _

end Step

theorem progress_run {values deadlines : Shards} {clients : ι → StoreM Value} {s : Store}
    {turns : List (Option ι × Reading)}
    (h : Passes Call.run KeepsPairs turns (parties values deadlines clients s)) (key : Str) :
    Progress (parties values deadlines clients s) key turns :=
  passes_induction Call.run (I := Progress (parties values deadlines clients s) key)
    (.unread (unread_snapshot values deadlines key))
    (fun _ _ hprogress hguard => hprogress.step hguard) h

end Snapshots

open Snapshots RdbSerializer

theorem record_written {expirations : ExtTreeMap Str Instant} {key : Str} {v : StoredValue}
    {now : Reading} {s : Store} {r : Record}
    (h : ((record expirations key v).runAt now s).1 = .ok (some r)) :
    (∀ d, expirations[key]? = some d → now.instant < d) ∧
      r = ⟨key, v, expirations[key]?.map fun d =>
        now.unixMs + UInt64.ofNat (asMillis (d - now.instant))⟩ := by
  rw [record] at h
  cases hd : expirations[key]? with
  | none =>
    rw [hd] at h
    exact ⟨nofun, (Option.some.inj (Except.ok.inj h)).symm⟩
  | some d =>
    rw [hd] at h
    by_cases hpassed : d ≤ now.instant
    · simp [runAt_bind, hpassed] at h
    · simp only [runAt_bind, runAt_instantNow, runAt_unixNow, runAt_pure, hpassed, if_false] at h
      refine ⟨fun d' hd' => ?_, (Option.some.inj (Except.ok.inj h)).symm⟩
      rw [← Option.some.inj hd']
      exact Nat.not_le.mp hpassed

/-- A record that the save writes has the value and the deadline that its key had
together at one moment of the snapshot. -/
theorem snapshot_pairs {ι : Type} [DecidableEq ι] (values deadlines : Shards)
    (clients : ι → StoreM Value) (s : Store) (turns : List (Option ι × Reading))
    (h : Passes Call.run KeepsPairs turns (parties values deadlines clients s))
    (data : ExtTreeMap Str StoredValue) (expirations : ExtTreeMap Str Instant)
    (hended : (schedule Call.run turns (parties values deadlines clients s)).Replied none
      (data, expirations)) (key : Str) (v : StoredValue) (hv : data[key]? = some v)
    (now : Reading) (s' : Store) (r : Record)
    (hwritten : ((record expirations key v).runAt now s').1 = .ok (some r)) :
    ∃ d : Option Instant,
      r = ⟨key, v, d.map fun d => now.unixMs + UInt64.ofNat (asMillis (d - now.instant))⟩ ∧
      ∃ earlier, earlier <+: turns ∧ ∀ t ≤ now.instant,
        (schedule Call.run earlier (parties values deadlines clients s)).state.live t key =
          some ⟨v, d⟩ := by
  obtain ⟨earlier, hprefix, hdata, hexp⟩ : Held (parties values deadlines clients s) turns key v
      expirations[key]? := by
    cases progress_run h key with
    | unread h =>
      rw [hended] at h
      cases h
    | timed v h hheld =>
      rw [hended] at h
      cases h
    | read h =>
      rw [hended] at h
      exact h v hv
  obtain ⟨hlater, hr⟩ := record_written hwritten
  refine ⟨expirations[key]?, hr, earlier, hprefix, fun t ht => ?_⟩
  exact liveOf_eq_some.mpr ⟨hdata, hexp, fun d hd => Nat.lt_of_le_of_lt ht (hlater d hd)⟩

/-! ### One key -/

namespace Snapshots

def k : Str := Str.lit "k"

def old : StoredValue := .string (Str.utf8 "old")

def held : Store := Store.empty.put k (some old) none

def turns (order : List (Option Unit)) : List (Option Unit × Reading) :=
  order.map fun party => (party, ⟨0, 0⟩)

/-- A client gives the key a deadline between the two scans. -/
def expiring : List (Option Unit × Reading) :=
  turns [none, none, none, some (), some (), some (), some (), none]

def expirers : Parties Unit := together (fun _ => handleExpire k 1000) held

/-- A client sets a new value with a deadline between the two scans. -/
def race : List (Option Unit × Reading) :=
  turns [none, none, none, some (), some (), some (), some (), some (), none]

def setters : Parties Unit :=
  together (fun _ => handleSet k (Str.utf8 "new") (some 1000) .none) held

def taken (p : Parties Unit) : Snapshot :=
  match p.progs none with
  | .done r => r
  | _ => (∅, ∅)

theorem Timed.returns {key : Str} {v : StoredValue} {p : StoreM Snapshot} (h : Timed key v p) :
    p.Returns fun r => r.1[key]? = some v := by
  induction h with
  | other c k h ih => exact ih
  | deadline k h => exact fun m => (h m).imp fun r => And.left

theorem record_of_deadline {expirations : ExtTreeMap Str Instant} {d : Instant}
    (hd : expirations[k]? = some d) (hlater : 0 < d) (v : StoredValue) (s : Store) :
    ((record expirations k v).runAt ⟨0, 0⟩ s).1 =
      .ok (some ⟨k, v, some (0 + UInt64.ofNat (asMillis (d - 0)))⟩) := by
  have hnot : ¬ d ≤ 0 := Nat.not_le.mpr hlater
  rw [record, hd]
  simp [runAt_bind, hnot, Except.map]

end Snapshots

theorem snapshot_pairs_expiring :
    let exps := (taken (schedule Call.run expiring expirers)).2
    ∃ r, ((record exps Snapshots.k old).runAt ⟨0, 0⟩ Store.empty).1 = .ok (some r) ∧
    r.value = old ∧ r.expireAtMs ≠ none ∧ ∃ earlier, earlier <+: expiring ∧ ∃ d,
      (schedule Call.run earlier expirers).state.live 0 Snapshots.k = some ⟨old, some d⟩ := by
  have hpasses : Passes Call.run KeepsPairs expiring expirers := by
    refine ⟨?_, ?_, ?_, ?_, ?_, ?_, ?_, ?_, trivial⟩ <;> intro key v t htimed hne
    any_goals exact absurd rfl hne
    rcases eq_or_ne Snapshots.k key with rfl | hk
    · have hv : some old = some v := htimed.returns (Store.empty.expirations)
      rw [← hv]
      rfl
    · exact absurd (ExtTreeMap.getElem?_alter_ne _ _ hk) hne
  have hended : (schedule Call.run expiring expirers).Replied none
      (taken (schedule Call.run expiring expirers)) := rfl
  have hd : (taken (schedule Call.run expiring expirers)).2[Snapshots.k]? =
      some (0 + fromMillis 1000) := rfl
  have hwritten := record_of_deadline hd (by decide) old Store.empty
  have hsame : parties Store.oneShard Store.oneShard _ held = expirers :=
    parties_oneShard (fun _ => handleExpire Snapshots.k 1000) held
  obtain ⟨d, hr, earlier, hprefix, hlive⟩ := snapshot_pairs Store.oneShard Store.oneShard _ held
    expiring (hsame.symm ▸ hpasses) (taken (schedule Call.run expiring expirers)).1 _
    (by rw [hsame]; exact hended) Snapshots.k old rfl ⟨0, 0⟩ Store.empty _ hwritten
  rw [hsame] at hlive
  refine ⟨_, hwritten, rfl, nofun, earlier, hprefix, ?_⟩
  cases d with
  | none => cases congrArg Record.expireAtMs hr
  | some d => exact ⟨d, hlive 0 le_rfl⟩

theorem old_value_new_deadline :
    let snapshot := taken (schedule Call.run race setters)
    (schedule Call.run race setters).Replied none snapshot ∧
    snapshot.1[Snapshots.k]? = some old ∧
    (∃ r, ((record snapshot.2 Snapshots.k old).runAt ⟨0, 0⟩ Store.empty).1 = .ok (some r)) ∧
    ∀ earlier, earlier <+: race → ∀ t,
      (schedule Call.run earlier setters).state.live t Snapshots.k ≠
        some ⟨old, snapshot.2[Snapshots.k]?⟩ := by
  have hd : (taken (schedule Call.run race setters)).2[Snapshots.k]? =
      some (0 + fromMillis 1000) := rfl
  refine ⟨rfl, rfl, ⟨_, record_of_deadline hd (by decide) old Store.empty⟩, ?_⟩
  intro earlier hprefix t hlive
  obtain ⟨hdata, hexp, -⟩ := liveOf_eq_some.mp hlive
  rw [hd] at hexp
  rw [List.prefix_iff_eq_take.mp hprefix] at hdata hexp
  have hlen : earlier.length ≤ 9 := hprefix.length_le
  generalize earlier.length = n at hdata hexp hlen
  interval_cases n
  -- Up to the insertion of the deadline the key has none.
  iterate 8 cases hexp
  all_goals
    have hnew : some (StoredValue.string (Str.utf8 "new")) = some old := hdata
    exact absurd (StoredValue.string.inj (Option.some.inj hnew)) (by decide)

end FireRedis
