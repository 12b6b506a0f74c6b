import FireRedis.Concurrency.SetNx

/-!
# A SET that meets evictions

The background evictor and the expiry check of another client find a deadline
in one step and remove the key in later ones. Where the key is removed only
before a SET has inserted its value, the value stays.
-/

namespace FireRedis
open Std Pool
open Program (Calls Leads calls_pure calls_ask)

namespace Eviction

/-- Who removes expired keys: `start_expiration_evictor` or another client. -/
inductive Evictor where
  | background
  | check

def Evictor.Result : Evictor → Type
  | background => ℕ
  | check => Bool

def Evictor.prog (key : Str) : (evictor : Evictor) → StoreM evictor.Result
  | background => Store.evictExpired
  | check => Store.checkExpiration key

/-- The setter is `none`. -/
def Reply {ι : Type} (evictors : ι → Evictor) : Option ι → Type
  | none => Value
  | some i => (evictors i).Result

abbrev Parties {ι : Type} (evictors : ι → Evictor) :=
  Pool Call Call.Answer Panic Store (Reply evictors)

section Setter

variable (key : Str) (value : Bytes) (condition : SetCondition)

def insertion : StoreM Value := do
  Store.set key value none
  return ok

def clearing : StoreM Value := do
  let _ ← expirationsRemove key
  return ok

/-- A call that neither inserts a value nor a deadline. -/
def Evicts : Call → Prop
  | .instantNow => True
  | .unixNow => True
  | .data (.get _) => True
  | .data (.alter _ f) => ∀ v, f v = none
  | .data _ => False
  | .expirations (.get _) => True
  | .expirations (.alter _ f) => ∀ d, f d = none
  | .expirations .iter => True
  | .expirations .clear => True

theorem calls_dataRemove : (dataRemove key).Calls Evicts :=
  calls_ask (c := Call.data (.alter key fun _ => none)) fun _ => rfl

theorem calls_expirationsRemove : (expirationsRemove key).Calls Evicts :=
  calls_ask (c := Call.expirations (.alter key fun _ => none)) fun _ => rfl

theorem calls_instantNow : instantNow.Calls Evicts := calls_ask (c := Call.instantNow) trivial

theorem calls_checkExpiration : (Store.checkExpiration key).Calls Evicts := by
  refine Calls.bind (calls_ask (c := Call.expirations (.get key)) trivial) fun d => ?_
  cases d with
  | none => exact calls_pure false
  | some expireAt =>
    refine calls_instantNow.bind fun now => ?_
    split
    · refine (calls_dataRemove key).bind fun _ => ?_
      exact (calls_expirationsRemove key).bind fun _ => calls_pure true
    · exact calls_pure false

theorem calls_lookup : (Store.lookup key).Calls Evicts := by
  refine (calls_checkExpiration key).bind fun expired => ?_
  cases expired with
  | true => exact calls_pure none
  | false => exact calls_ask (c := Call.data (.get key)) trivial

theorem calls_evictExpired : Store.evictExpired.Calls Evicts := by
  refine calls_instantNow.bind fun now => ?_
  refine Calls.bind (calls_ask (c := Call.expirations .iter) trivial) fun entries => ?_
  refine Calls.foldlM _ 0 fun evicted key _ => ?_
  refine (calls_dataRemove key).bind fun removed => ?_
  exact (calls_expirationsRemove key).bind fun _ => calls_pure _

theorem Evictor.calls (evictor : Evictor) : (evictor.prog key).Calls Evicts := by
  cases evictor with
  | background => exact calls_evictExpired
  | check => exact calls_checkExpiration key

/-- Before it inserts, SET only checks the key. -/
def Setting (prog : StoreM Value) : Prop :=
  Leads Evicts (fun q => q = insertion key value ∨ q = return .null) prog

theorem setting_handleSet : Setting key value (handleSet key value none condition) := by
  refine Leads.bind ((calls_lookup key).bind fun v => calls_pure v.isSome) fun present => ?_
  split
  · exact .here _ (Or.inr rfl)
  · split
    · exact .here _ (Or.inr rfl)
    · exact .here _ (Or.inl rfl)

theorem insertion_call : ∃ k, insertion key value =
    .call (.data (.alter key fun _ => some (.string value))) k ∧
    ∀ r, k r = clearing key := ⟨_, rfl, fun _ => rfl⟩

theorem clearing_call : ∃ k, clearing key = .call (.expirations (.alter key fun _ => none)) k ∧
    ∀ r, k r = return ok := ⟨_, rfl, fun _ => rfl⟩

theorem evicts_run {c : Call} (hc : Evicts c) (t : Reading) (s : Store) :
    (s.expirations[key]? = none → (Call.run t c s).2.expirations[key]? = none) ∧
    (c ≠ .data (.alter key fun _ => none) →
      (Call.run t c s).2.data[key]? = s.data[key]?) := by
  match c, hc with
  | .instantNow, _ | .unixNow, _ | .data (.get _), _ | .expirations (.get _), _
  | .expirations .iter, _ => exact ⟨id, fun _ => rfl⟩
  | .expirations .clear, _ => exact ⟨fun _ => ExtTreeMap.getElem?_empty, fun _ => rfl⟩
  | .expirations (.alter j f), hf =>
    refine ⟨fun hnone => ?_, fun _ => rfl⟩
    show (s.expirations.alter j f)[key]? = none
    rw [ExtTreeMap.getElem?_alter]
    split
    · exact hf _
    · exact hnone
  | .data (.alter j f), hf =>
    refine ⟨id, fun hne => ?_⟩
    show (s.data.alter j f)[key]? = s.data[key]?
    have hj : j ≠ key := by
      rintro rfl
      exact hne (congrArg (fun f => Call.data (.alter j f)) (funext hf))
    rw [ExtTreeMap.getElem?_alter, if_neg (by simpa using hj)]

end Setter

/-! ### The run -/

variable {ι : Type} [DecidableEq ι] (key : Str) (value : Bytes) (condition : SetCondition)
  (evictors : ι → Evictor)

def parties (s : Store) : Parties evictors where
  state := s
  progs
    | none => handleSet key value none condition
    | some i => (evictors i).prog key

variable {evictors}

/-- The setter has inserted its value. -/
def Written (p : Parties evictors) : Prop :=
  p.progs none = clearing key ∨ p.Replied none ok

/-- An evictor removes the key only before the setter has inserted its value. -/
def RemovesOld (p : Parties evictors) (party : Option ι) : Prop :=
  party ≠ none → (p.progs party).next = some (.data (.alter key fun _ => none)) → ¬ Written key p

omit [DecidableEq ι] in
theorem written_congr {p q : Parties evictors} (h : q.progs none = p.progs none) :
    Written key q ↔ Written key p := by
  unfold Written Replied
  rw [h]

structure Inv (p : Parties evictors) : Prop where
  evictors : ∀ i, (p.progs (some i)).Calls Evicts
  setter : Setting key value (p.progs none) ∨ Written key p
  held : Written key p → p.state.data[key]? = some (.string value)
  deadline : p.Replied none ok → p.state.expirations[key]? = none

variable {key value}

theorem Setting.not_written {prog : StoreM Value} (h : Setting key value prog) :
    prog ≠ clearing key ∧ prog ≠ return ok := by
  have hok : ¬ Setting key value (return ok) := by
    intro h
    cases h with
    | here _ h =>
      rcases h with h | h
      · cases h
      · cases Program.done.inj h
  refine ⟨?_, fun heq => hok (heq ▸ h)⟩
  rintro rfl
  obtain ⟨k, hk, hnext⟩ := clearing_call key
  rw [hk] at h
  cases h with
  | here _ h => rcases h with h | h <;> cases h
  | call _ _ _ h =>
    exact hok (hnext (none : Option Instant) ▸ h (none : Option Instant))

variable {p : Parties evictors} (hp : Inv key value p) (t : Reading)
include hp

theorem Inv.step_evictor {i : ι} (hguard : RemovesOld key p (some i)) :
    Inv key value (advance Call.run (some i) t p) := by
  have hsame : (advance Call.run (some i) t p).progs none = p.progs none :=
    advance_other (Option.some_ne_none i).symm t
  have hwritten := written_congr key hsame
  cases hprog : p.progs (some i) with
  | done a =>
    rw [advance_ended (by rw [hprog]; rfl)]
    exact hp
  | fault e =>
    rw [advance_ended (by rw [hprog]; rfl)]
    exact hp
  | call c k =>
    have hcalls := hp.evictors i
    rw [hprog] at hcalls
    obtain ⟨hc, hk⟩ := hcalls
    obtain ⟨hexp, hdata⟩ := evicts_run key hc t p.state
    rw [← advance_state hprog] at hexp hdata
    refine ⟨fun j => ?_, ?_, fun hw => ?_, fun hok => ?_⟩
    · by_cases hj : some j = some i
      · obtain rfl := Option.some.inj hj
        rw [advance_self hprog]
        exact hk _
      · rw [advance_other hj]
        exact hp.evictors j
    · exact hp.setter.imp (fun h => hsame ▸ h) hwritten.mpr
    · have hne : c ≠ .data (.alter key fun _ => none) := fun hc =>
        hguard (Option.some_ne_none i) (by rw [hprog]; exact congrArg some hc) (hwritten.mp hw)
      exact (hdata hne).trans (hp.held (hwritten.mp hw))
    · exact hexp (hp.deadline (hsame.symm.trans hok))

theorem Inv.step_setter : Inv key value (advance Call.run none t p) := by
  have hevictors : ∀ i, ((advance Call.run none t p).progs (some i)).Calls Evicts := by
    intro i
    rw [advance_other (Option.some_ne_none i)]
    exact hp.evictors i
  rcases hp.setter with hset | hclearing | hok
  · generalize hprog : p.progs none = prog at hset
    cases hset with
    | here _ h =>
      rcases h with rfl | rfl
      · obtain ⟨k, hk, hnext⟩ := insertion_call key value
        have hcall := hprog.trans hk
        have hself : (advance Call.run none t p).progs none = _ :=
          (advance_self hcall t).trans (hnext _)
        refine ⟨hevictors, Or.inr (Or.inl hself), fun _ => ?_, fun hok => ?_⟩
        · rw [advance_state hcall]
          exact ExtTreeMap.getElem?_alter_self
        · cases hself.symm.trans hok
      · rw [advance_ended (by rw [hprog]; rfl)]
        exact hp
    | fault e =>
      rw [advance_ended (by rw [hprog]; rfl)]
      exact hp
    | call c k hc hk =>
      have hself : (advance Call.run none t p).progs none = _ := advance_self hprog t
      have hnot := Setting.not_written (hk (Call.run t c p.state).1)
      rw [← hself] at hnot
      refine ⟨hevictors, Or.inl ?_, fun hw => ?_, fun hok => ?_⟩
      · rw [hself]
        exact hk _
      · exact absurd hw (not_or.mpr hnot)
      · exact absurd hok hnot.2
  · obtain ⟨k, hk, hnext⟩ := clearing_call key
    have hcall := hclearing.trans hk
    have hself : (advance Call.run none t p).progs none = _ :=
      (advance_self hcall t).trans (hnext _)
    refine ⟨hevictors, Or.inr (Or.inr hself), fun _ => ?_, fun _ => ?_⟩
    · rw [advance_state hcall]
      exact hp.held (Or.inl hclearing)
    · rw [advance_state hcall]
      exact ExtTreeMap.getElem?_alter_self
  · rw [advance_ended (by rw [hok]; rfl)]
    exact hp

omit hp in
theorem inv_runs {s : Store}
    (h : Runs Call.run (RemovesOld key) (parties key value condition evictors s) p) :
    Inv key value p := by
  refine runs_induction ⟨fun i => ?_, Or.inl ?_, fun hw => ?_, fun hok => ?_⟩ ?_ h
  · exact (evictors i).calls key
  · exact setting_handleSet key value condition
  · have hnot := Setting.not_written (setting_handleSet key value condition)
    rcases hw with hw | hw
    · exact absurd hw hnot.1
    · exact absurd hw hnot.2
  · exact absurd hok (Setting.not_written (setting_handleSet key value condition)).2
  · intro p party t hp hguard
    cases party with
    | none => exact hp.step_setter t
    | some i => exact hp.step_evictor t hguard

end Eviction

/-- A SET without TTL that has replied OK leaves its value without a deadline,
whatever evictions ran with it. -/
theorem eviction_keeps_new_value {ι : Type} [DecidableEq ι] (key : Str) (value : Bytes)
    (condition : SetCondition) (evictors : ι → Eviction.Evictor) (s : Store)
    (p : Eviction.Parties evictors) (h : Runs Call.run (Eviction.RemovesOld key)
      (Eviction.parties key value condition evictors s) p) (hok : p.Replied none ok) :
    p.state.data[key]? = some (.string value) ∧ p.state.expirations[key]? = none := by
  have hp := Eviction.inv_runs condition h
  exact ⟨hp.held (Or.inr hok), hp.deadline hok⟩

/-! ### One evictor -/

namespace Eviction

def k : Str := Str.lit "k"

/-- The key has an old value, and its deadline has passed. -/
def expired : Store := Store.empty.put k (some (.string (Str.utf8 "old"))) (some 0)

def turns (order : List (Option Unit)) : List (Option Unit × Reading) :=
  order.map fun party => (party, ⟨1, 0⟩)

/-- The whole SET comes between the scan of the evictor and its removals. -/
def race : List (Option Unit × Reading) :=
  turns [some (), some (), none, none, none, none, none, none, some (), some ()]

/-- The evictor ends before the SET inserts its value. -/
def evictorFirst : List (Option Unit × Reading) :=
  turns [some (), some (), some (), some (), none, none, none, none]

end Eviction

open Eviction

theorem eviction_keeps_new_value_evictor_first : ∃ p : Parties fun _ : Unit => Evictor.background,
    Runs Call.run (RemovesOld k) (parties k (Str.utf8 "new") .none _ expired) p ∧
    p.Replied none ok ∧ p.Replied (some ()) (1 : ℕ) ∧
    p.state.data[k]? = some (.string (Str.utf8 "new")) := by
  have hpasses : Passes Call.run (RemovesOld k) evictorFirst
      (parties k (Str.utf8 "new") .none (fun _ : Unit => Evictor.background) expired) := by
    refine ⟨?_, ?_, ?_, ?_, ?_, ?_, ?_, ?_, trivial⟩ <;> intro hne _ hw <;>
      first | exact hne rfl | (rcases hw with hw | hw <;> cases hw)
  have hruns := runs_schedule Call.run hpasses
  exact ⟨_, hruns, rfl, rfl, (eviction_keeps_new_value k (Str.utf8 "new") .none _ expired _ hruns
    rfl).1⟩

theorem new_value_evicted : ∃ p : Parties fun _ : Unit => Evictor.background,
    Runs Call.run (fun _ _ => True) (parties k (Str.utf8 "new") .none _ expired) p ∧
    p.Replied none ok ∧ p.Replied (some ()) (1 : ℕ) ∧ p.state.data[k]? = none := by
  have hruns := runs_schedule Call.run (passes_all Call.run
    race
    (parties k (Str.utf8 "new") .none (fun _ : Unit => Evictor.background) expired))
  refine ⟨_, hruns, ?_, ?_, ?_⟩
  · rfl
  · rfl
  · rfl

end FireRedis
