import FireRedis.Base.Pool
import FireRedis.Store.Live
import FireRedis.Commands.Execute

/-!
# SET NX by clients that take turns

Each client tests the key and inserts its value in different steps. A second
test between the two finds the key still absent, and then both clients insert.
Where no client tests while another is about to insert, one of them wins.
-/

namespace FireRedis
open Std Pool

/-- Clients with a command handler each, on one store. -/
abbrev Clients (ι : Type) := Pool Call Call.Answer Panic Store fun _ : ι => Value

namespace SetNx

/-- Where a SET NX is that has found no deadline. -/
inductive Phase where
  | start
  | test
  | insert
  | clear
  | ok
  | null

variable (key : Str) (value : Bytes)

/-- What follows the existence test. -/
def afterTest (present : Bool) : StoreM Value :=
  if SetCondition.nx = .nx ∧ present then return .null
  else if SetCondition.nx = .xx ∧ !present then return .null
  else do
    Store.set key value none
    return FireRedis.ok

def Phase.prog : Phase → StoreM Value
  | start => handleSet key value none .nx
  | test => do afterTest key value (← dataGet key).isSome
  | insert => do
    Store.set key value none
    return FireRedis.ok
  | clear => do
    let _ ← expirationsRemove key
    return FireRedis.ok
  | ok => return FireRedis.ok
  | null => return .null

/-- The client has found the key absent. -/
def Phase.passed : Phase → Bool
  | insert | clear | ok => true
  | _ => false

def Phase.written : Phase → Bool
  | clear | ok => true
  | _ => false

variable {ι : Type} [DecidableEq ι] (values : ι → Bytes)

def clients (s : Store) : Clients ι := ⟨s, fun i => handleSet key (values i) none .nx⟩

/-- A client tests the key only while no other is about to change it. -/
def TestsAlone (p : Clients ι) (i : ι) : Prop :=
  (p.progs i).next = some (.data (.get key)) →
    ∀ j, j ≠ i → ∀ f, (p.progs j).next ≠ some (.data (.alter key f))

structure Inv (phase : ι → Phase) (p : Clients ι) : Prop where
  progs : ∀ i, p.progs i = (phase i).prog key (values i)
  deadline : p.state.expirations[key]? = none
  alone : ∀ i j, (phase i).passed = true → (phase j).passed = true → i = j
  held : ∀ i, (phase i).written = true → p.state.data[key]? = some (.string (values i))
  absent : (∀ i, (phase i).written = false) → p.state.data[key]? = none
  refused : ∀ i, phase i = .null → ∃ j, (phase j).written = true

theorem Phase.passed_of_written {phase : Phase} (h : phase.written = true) :
    phase.passed = true := by
  cases phase <;> first | rfl | cases h

theorem Phase.start_call : ∃ k, Phase.start.prog key value = .call (.expirations (.get key)) k ∧
    k (none : Option Instant) = Phase.test.prog key value := ⟨_, rfl, rfl⟩

theorem Phase.test_call : ∃ k, Phase.test.prog key value = .call (.data (.get key)) k ∧
    k (none : Option StoredValue) = Phase.insert.prog key value ∧
    ∀ v : StoredValue, k (some v) = Phase.null.prog key value := ⟨_, rfl, rfl, fun _ => rfl⟩

theorem Phase.insert_call : ∃ k, Phase.insert.prog key value =
    .call (.data (.alter key fun _ => some (.string value))) k ∧
    ∀ r, k r = Phase.clear.prog key value := ⟨_, rfl, fun _ => rfl⟩

theorem Phase.clear_call : ∃ k, Phase.clear.prog key value =
    .call (.expirations (.alter key fun _ => none)) k ∧
    ∀ r, k r = Phase.ok.prog key value := ⟨_, rfl, fun _ => rfl⟩

section Step

variable {key values} {phase : ι → Phase} {p : Clients ι} (hp : Inv key values phase p) {i : ι}
  (t : Reading)
include hp

theorem Inv.progs_update (next : Phase) (j : ι) :
    Function.update p.progs i (next.prog key (values i)) j =
      (Function.update phase i next j).prog key (values j) :=
  update_rel (r := fun j prog (x : Phase) => prog = x.prog key (values j)) hp.progs i rfl j

theorem Inv.quiet {next : Phase} {s : Store} (hnext : next.passed = true → (phase i).passed = true)
    (hwritten : next.written = (phase i).written)
    (hnull : next = .null → ∃ j, (phase j).written = true)
    (hdata : s.data[key]? = p.state.data[key]?) (hexp : s.expirations[key]? = none) :
    Inv key values (Function.update phase i next)
      ⟨s, Function.update p.progs i (next.prog key (values i))⟩ := by
  have hold : ∀ j, (Function.update phase i next j).passed = true → (phase j).passed = true :=
    (Function.forall_update_iff phase fun j x => x.passed = true → (phase j).passed = true).mpr
      ⟨hnext, fun _ _ hj => hj⟩
  have hsame : ∀ j, (Function.update phase i next j).written = (phase j).written :=
    (Function.forall_update_iff phase fun j x => x.written = (phase j).written).mpr
      ⟨hwritten, fun _ _ => rfl⟩
  have hrefused : ∀ j, Function.update phase i next j = .null → ∃ l, (phase l).written = true :=
    (Function.forall_update_iff phase fun _ x => x = .null → ∃ l, (phase l).written = true).mpr
      ⟨hnull, fun j _ => hp.refused j⟩
  refine ⟨hp.progs_update next, hexp, ?_, ?_, ?_, ?_⟩
  · intro j k hj hk
    exact hp.alone j k (hold j hj) (hold k hk)
  · intro j hj
    rw [hdata]
    exact hp.held j ((hsame j).symm.trans hj)
  · intro hnone
    rw [hdata]
    exact hp.absent fun j => (hsame j).symm.trans (hnone j)
  · intro j hj
    obtain ⟨l, hl⟩ := hrefused j hj
    exact ⟨l, (hsame l).trans hl⟩

theorem Inv.start (h : phase i = .start) :
    Inv key values (Function.update phase i .test) (advance Call.run i t p) := by
  obtain ⟨k, hcall, hnext⟩ := Phase.start_call key (values i)
  have hprog : p.progs i = .call (.expirations (.get key)) k := by
    rw [hp.progs i, h, hcall]
  rw [advance_call hprog]
  have hanswer : (Call.run t (.expirations (.get key)) p.state).1 = none := hp.deadline
  rw [hanswer, hnext]
  exact hp.quiet nofun (by rw [h]; rfl) nofun rfl hp.deadline

omit [DecidableEq ι] in
/-- While one client tests an absent key, no other is on its way to OK. -/
theorem Inv.none_passed (h : phase i = .test) (hguard : TestsAlone key p i)
    (hv : p.state.data[key]? = none) (j : ι) : (phase j).passed = false := by
  obtain ⟨k, hcall, -⟩ := Phase.test_call key (values i)
  have hj := hp.progs j
  have hheld := hp.held j
  cases hphase : phase j with
  | insert =>
    have hji : j ≠ i := by
      rintro rfl
      rw [h] at hphase
      cases hphase
    refine absurd ?_ (hguard (by rw [hp.progs i, h, hcall]; rfl) j hji
      fun _ => some (.string (values j)))
    obtain ⟨k', hcall', -⟩ := Phase.insert_call key (values j)
    rw [hj, hphase, hcall']
    rfl
  | clear | ok =>
    rw [hphase, hv] at hheld
    exact absurd (hheld rfl) nofun
  | start | test | null => rfl

omit hp in
theorem only_passed (next : Phase) (hothers : ∀ j, (phase j).passed = true → j = i) (j : ι)
    (hj : (Function.update phase i next j).passed = true) : j = i :=
  (Function.forall_update_iff phase fun j x => x.passed = true → j = i).mpr
    ⟨fun _ => rfl, fun j _ => hothers j⟩ j hj

theorem Inv.test (h : phase i = .test) (hguard : TestsAlone key p i) : ∃ next,
    Inv key values (Function.update phase i next) (advance Call.run i t p) := by
  obtain ⟨k, hcall, habsent, hpresent⟩ := Phase.test_call key (values i)
  have hprog : p.progs i = .call (.data (.get key)) k := by
    rw [hp.progs i, h, hcall]
  rw [advance_call hprog]
  have hanswer : (Call.run t (.data (.get key)) p.state).1 = p.state.data[key]? := rfl
  rw [hanswer]
  cases hv : p.state.data[key]? with
  | some v =>
    refine ⟨.null, ?_⟩
    rw [hpresent v]
    have hwritten : ∃ j, (phase j).written = true := by
      by_contra hnone
      have habsent := hp.absent fun j => by simpa using not_exists.mp hnone j
      rw [hv] at habsent
      cases habsent
    exact hp.quiet nofun (by rw [h]; rfl) (fun _ => hwritten) rfl hp.deadline
  | none =>
    refine ⟨.insert, ?_⟩
    rw [habsent]
    have hnone := hp.none_passed h hguard hv
    refine ⟨hp.progs_update .insert, hp.deadline, ?_, ?_, ?_, ?_⟩
    · have honly : ∀ j, (Function.update phase i .insert j).passed = true → j = i :=
        only_passed .insert fun j hj => absurd hj (by simp [hnone j])
      intro j l hj hl
      rw [honly j hj, honly l hl]
    · apply (Function.forall_update_iff phase fun j x =>
        x.written = true → p.state.data[key]? = some (.string (values j))).mpr
      exact ⟨nofun, fun j _ => hp.held j⟩
    · exact fun _ => hv
    · apply (Function.forall_update_iff phase fun j x =>
        x = .null → ∃ l, (Function.update phase i .insert l).written = true).mpr
      refine ⟨nofun, fun j _ hj => ?_⟩
      obtain ⟨l, hl⟩ := hp.refused j hj
      exact absurd (Phase.passed_of_written hl) (by simp [hnone l])

theorem Inv.insert (h : phase i = .insert) :
    Inv key values (Function.update phase i .clear) (advance Call.run i t p) := by
  obtain ⟨k, hcall, hnext⟩ := Phase.insert_call key (values i)
  have hprog : p.progs i = .call (.data (.alter key fun _ => some (.string (values i)))) k := by
    rw [hp.progs i, h, hcall]
  rw [advance_call hprog, hnext]
  have honly := only_passed .clear fun j hj => hp.alone j i hj (by rw [h]; rfl)
  refine ⟨hp.progs_update .clear, hp.deadline, ?_, ?_, ?_, ?_⟩
  · intro j l hj hl
    rw [honly j hj, honly l hl]
  · intro j hj
    rw [honly j (Phase.passed_of_written hj)]
    exact ExtTreeMap.getElem?_alter_self
  · intro hnone
    have hi := hnone i
    rw [Function.update_self] at hi
    cases hi
  · intro j _
    exact ⟨i, by rw [Function.update_self]; rfl⟩

theorem Inv.clear (h : phase i = .clear) :
    Inv key values (Function.update phase i .ok) (advance Call.run i t p) := by
  obtain ⟨k, hcall, hnext⟩ := Phase.clear_call key (values i)
  have hprog : p.progs i = .call (.expirations (.alter key fun _ => none)) k := by
    rw [hp.progs i, h, hcall]
  rw [advance_call hprog, hnext]
  exact hp.quiet (fun _ => by rw [h]; rfl) (by rw [h]; rfl) nofun rfl ExtTreeMap.getElem?_alter_self

theorem Inv.step (hguard : TestsAlone key p i) :
    ∃ phase', Inv key values phase' (advance Call.run i t p) := by
  cases h : phase i with
  | start => exact ⟨_, hp.start t h⟩
  | test =>
    obtain ⟨next, hnext⟩ := hp.test t h hguard
    exact ⟨_, hnext⟩
  | insert => exact ⟨_, hp.insert t h⟩
  | clear => exact ⟨_, hp.clear t h⟩
  | ok | null =>
    rw [advance_ended (by rw [hp.progs i, h]; rfl)]
    exact ⟨phase, hp⟩

end Step

variable {key values} in
theorem inv_runs {s : Store} {p : Clients ι} (habsent : s.data[key]? = none)
    (hexp : s.expirations[key]? = none)
    (h : Runs Call.run (TestsAlone key) (clients key values s) p) :
    ∃ phase, Inv key values phase p := by
  refine runs_induction (I := fun p => ∃ phase, Inv key values phase p) ⟨fun _ => .start, ?_⟩ ?_ h
  · exact ⟨fun _ => rfl, hexp, fun _ _ hi => (nomatch hi), fun _ hi => (nomatch hi),
      fun _ => habsent, fun _ hi => (nomatch hi)⟩
  · rintro p i t ⟨phase, hp⟩ hguard
    exact hp.step t hguard

theorem Phase.eq_ok {phase : Phase} {key : Str} {value : Bytes}
    (h : phase.prog key value = .done FireRedis.ok) : phase = .ok := by
  cases phase with
  | ok => rfl
  | null => cases Program.done.inj h
  | start | test | insert | clear => cases h

theorem Phase.ended {phase : Phase} {key : Str} {value : Bytes}
    (h : (phase.prog key value).next = none) : phase = .ok ∨ phase = .null := by
  cases phase with
  | ok => exact Or.inl rfl
  | null => exact Or.inr rfl
  | start | test | insert | clear => cases h

end SetNx

section Exclusive

variable {ι : Type} [DecidableEq ι]

/-- Of the clients that SET one absent key NX, at most one gets OK, and it is
its value that the key holds; when all have their reply, one of them has got OK. -/
theorem set_nx_exclusive (key : Str) (values : ι → Bytes) (s : Store)
    (habsent : s.data[key]? = none) (hexp : s.expirations[key]? = none) (p : Clients ι)
    (h : Runs Call.run (SetNx.TestsAlone key) (SetNx.clients key values s) p) :
    (∀ i j, p.Replied i ok → p.Replied j ok → i = j) ∧
    (∀ i, p.Replied i ok →
      p.state.data[key]? = some (.string (values i)) ∧ p.state.expirations[key]? = none) ∧
    ((∀ i, (p.progs i).next = none) → Nonempty ι → ∃ i, p.Replied i ok) := by
  obtain ⟨phase, hp⟩ := SetNx.inv_runs habsent hexp h
  have hok : ∀ i, p.Replied i ok → phase i = .ok := fun i hi =>
    SetNx.Phase.eq_ok ((hp.progs i).symm.trans hi)
  refine ⟨fun i j hi hj => ?_, fun i hi => ?_, fun hended => ?_⟩
  · exact hp.alone i j (by rw [hok i hi]; rfl) (by rw [hok j hj]; rfl)
  · exact ⟨hp.held i (by rw [hok i hi]; rfl), hp.deadline⟩
  · rintro ⟨i⟩
    have hall : ∀ j, phase j = .ok ∨ phase j = .null := fun j =>
      SetNx.Phase.ended (by rw [← hp.progs j]; exact hended j)
    have hdone : ∀ j, phase j = .ok → p.Replied j ok := fun j hj => by
      rw [Replied, hp.progs j, hj]
      rfl
    rcases hall i with hi | hi
    · exact ⟨i, hdone i hi⟩
    · obtain ⟨j, hj⟩ := hp.refused i hi
      rcases hall j with hj' | hj'
      · exact ⟨j, hdone j hj'⟩
      · rw [hj'] at hj
        cases hj

end Exclusive

/-! ### Two clients -/

namespace SetNx

def k : Str := Str.lit "k"

def value (i : Bool) : Bytes := if i then Str.utf8 "a" else Str.utf8 "b"

def turns (order : List Bool) : List (Bool × Reading) := order.map fun i => (i, ⟨0, 0⟩)

/-- Both clients test the key before either inserts its value. -/
def race : List (Bool × Reading) := turns [true, true, false, false, true, true, false, false]

end SetNx

theorem set_nx_exclusive_two : ∃ p : Clients Bool,
    Runs Call.run (SetNx.TestsAlone SetNx.k) (SetNx.clients SetNx.k SetNx.value Store.empty) p ∧
    p.Replied true ok ∧ ¬ p.Replied false ok ∧
    p.state.data[SetNx.k]? = some (.string (Str.utf8 "a")) := by
  have hpasses : Passes Call.run (SetNx.TestsAlone SetNx.k)
      (SetNx.turns [true, true, true, true, false, false])
      (SetNx.clients SetNx.k SetNx.value Store.empty) := by
    refine ⟨?_, ?_, ?_, ?_, ?_, ?_, trivial⟩ <;> intro _ j hj f hnext <;>
      cases j <;> first | exact absurd rfl hj | cases hnext
  have hruns := runs_schedule Call.run hpasses
  have hexcl := set_nx_exclusive SetNx.k SetNx.value Store.empty rfl rfl _ hruns
  refine ⟨_, hruns, rfl, fun hfalse => ?_, (hexcl.2.1 true rfl).1⟩
  cases hexcl.1 true false rfl hfalse

theorem set_nx_both_ok : ∃ p : Clients Bool,
    Runs Call.run (fun _ _ => True) (SetNx.clients SetNx.k SetNx.value Store.empty) p ∧
    p.Replied true ok ∧ p.Replied false ok ∧
    p.state.data[SetNx.k]? ≠ some (.string (SetNx.value true)) := by
  have hruns := runs_schedule Call.run
    (passes_all Call.run SetNx.race (SetNx.clients SetNx.k SetNx.value Store.empty))
  refine ⟨_, hruns, rfl, rfl, ?_⟩
  have hlast : (schedule Call.run SetNx.race
      (SetNx.clients SetNx.k SetNx.value Store.empty)).state.data[SetNx.k]? =
      some (.string (SetNx.value false)) := ExtTreeMap.getElem?_alter_self
  rw [hlast]
  intro h
  have hbytes : SetNx.value false = SetNx.value true := StoredValue.string.inj (Option.some.inj h)
  exact absurd hbytes (by decide)

end FireRedis
