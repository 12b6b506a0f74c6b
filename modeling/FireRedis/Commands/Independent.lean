import FireRedis.Base.Commute
import FireRedis.Commands.Capabilities

/-!
# Commands that share no key

A command on single keys reaches the store by calls on its own keys and by
readings of the clock. Calls on different keys commute on both maps, whatever
the store holds, so two commands that share no key commute as well. A command
that sets no deadline leaves a key without one.
-/

namespace FireRedis
open Std
open Program (Calls Commute calls_pure calls_ask exec_comm)

/-! ### Calls on keys -/

/-- A reading of a clock, or a call on one of the keys. It sets a deadline only
where the capabilities say so. -/
def Caps.Allows (c : Caps) : Call → Prop
  | .instantNow => True
  | .unixNow => True
  | .data (.get key) => c.keys key
  | .data (.alter key _) => c.keys key
  | .data _ => False
  | .expirations (.get key) => c.keys key
  | .expirations (.alter key f) => c.keys key ∧ (¬ c.deadlines → ∀ d, f d = none)
  | .expirations _ => False

def MapCall.On {V : Type} (keys : Str → Prop) : MapCall V → Prop
  | .get key => keys key
  | .alter key _ => keys key
  | .iter => False
  | .clear => False

theorem MapCall.On.commute {V : Type} {keys keys' : Str → Prop} {c c' : MapCall V}
    (hc : c.On keys) (hc' : c'.On keys') (hapart : ∀ key, keys key → ¬ keys' key)
    (m : ExtTreeMap Str V) :
    (c.run (c'.run m).2).1 = (c.run m).1 ∧ (c'.run (c.run m).2).1 = (c'.run m).1 ∧
      (c.run (c'.run m).2).2 = (c'.run (c.run m).2).2 := by
  have hne : ∀ j k, keys j → keys' k → j ≠ k := by
    rintro j k hj hk rfl
    exact hapart j hj hk
  match c, c', hc, hc' with
  | .get j, .get k, _, _ => exact ⟨rfl, rfl, rfl⟩
  | .get j, .alter k g, hj, hk =>
    exact ⟨ExtTreeMap.getElem?_alter_ne m g (hne j k hj hk).symm, rfl, rfl⟩
  | .alter j f, .get k, hj, hk =>
    exact ⟨rfl, ExtTreeMap.getElem?_alter_ne m f (hne j k hj hk), rfl⟩
  | .alter j f, .alter k g, hj, hk =>
    exact ⟨ExtTreeMap.getElem?_alter_ne m g (hne j k hj hk).symm,
      ExtTreeMap.getElem?_alter_ne m f (hne j k hj hk),
      (ExtTreeMap.alter_comm m f g (hne j k hj hk)).symm⟩

namespace Caps.Allows

variable {c c' : Caps}

theorem data {x : MapCall StoredValue} (hx : c.Allows (.data x)) : x.On c.keys := by
  match x, hx with
  | .get _, hk | .alter _ _, hk => exact hk

theorem expirations {x : MapCall Instant} (hx : c.Allows (.expirations x)) : x.On c.keys := by
  match x, hx with
  | .get _, hk => exact hk
  | .alter _ _, hk => exact hk.1

theorem commute {x x' : Call} (hx : c.Allows x) (hx' : c'.Allows x')
    (hapart : ∀ key, c.keys key → ¬ c'.keys key) (now now' : Reading) :
    Commute (Call.run now) (Call.run now') x x' := by
  match x, x', hx, hx' with
  | .instantNow, _, _, _ | .unixNow, _, _, _ =>
    exact ⟨fun _ => rfl, fun _ => rfl, fun _ => rfl⟩
  | .data _, .instantNow, _, _ | .data _, .unixNow, _, _ | .data _, .expirations _, _, _ =>
    exact ⟨fun _ => rfl, fun _ => rfl, fun _ => rfl⟩
  | .expirations _, .instantNow, _, _ | .expirations _, .unixNow, _, _
  | .expirations _, .data _, _, _ =>
    exact ⟨fun _ => rfl, fun _ => rfl, fun _ => rfl⟩
  | .data x, .data x', hx, hx' =>
    have hmap := fun s : Store => hx.data.commute hx'.data hapart s.data
    exact ⟨fun s => (hmap s).1, fun s => (hmap s).2.1,
      fun s => congrArg (Store.mk · s.expirations) (hmap s).2.2⟩
  | .expirations x, .expirations x', hx, hx' =>
    have hmap := fun s : Store => hx.expirations.commute hx'.expirations hapart s.expirations
    exact ⟨fun s => (hmap s).1, fun s => (hmap s).2.1,
      fun s => congrArg (Store.mk s.data) (hmap s).2.2⟩

theorem permanent {x : Call} (hx : c.Allows x) (hd : ¬ c.deadlines) {now : Reading} {s : Store}
    {key : Str} (h : s.expirations[key]? = none) :
    (Call.run now x s).2.expirations[key]? = none := by
  match x, hx with
  | .instantNow, _ | .unixNow, _ | .data _, _ | .expirations (.get _), _ => exact h
  | .expirations (.alter j f), hf =>
    show (s.expirations.alter j f)[key]? = none
    rcases eq_or_ne j key with rfl | hj
    · rw [ExtTreeMap.getElem?_alter_self]
      exact hf.2 hd _
    · rw [ExtTreeMap.getElem?_alter_ne _ f hj]
      exact h

theorem untouched {x : Call} (hx : c.Allows x) {now : Reading} {s : Store} {key : Str}
    (hkey : ¬ c.keys key) :
    (Call.run now x s).2.data[key]? = s.data[key]? ∧
      (Call.run now x s).2.expirations[key]? = s.expirations[key]? := by
  have hne : ∀ j, c.keys j → j ≠ key := by
    rintro j hj rfl
    exact hkey hj
  match x, hx with
  | .instantNow, _ | .unixNow, _ | .data (.get _), _ | .expirations (.get _), _ => exact ⟨rfl, rfl⟩
  | .data (.alter j f), hj => exact ⟨ExtTreeMap.getElem?_alter_ne _ f (hne j hj), rfl⟩
  | .expirations (.alter j f), hj => exact ⟨rfl, ExtTreeMap.getElem?_alter_ne _ f (hne j hj.1)⟩

end Caps.Allows

/-! ### The calls of a method -/

section Methods

variable {c : Caps} {key : Str} (hk : c.keys key)
include hk

theorem on_dataRemove : (dataRemove key).Calls c.Allows :=
  calls_ask (c := Call.data (.alter key fun _ => none)) hk

theorem on_expirationsRemove : (expirationsRemove key).Calls c.Allows :=
  calls_ask (c := Call.expirations (.alter key fun _ => none)) ⟨hk, fun _ _ => rfl⟩

theorem on_expirationsGet : (expirationsGet key).Calls c.Allows :=
  calls_ask (c := Call.expirations (.get key)) hk

theorem on_dataAlter (f : Option StoredValue → Option StoredValue) :
    (dataAlter key f).Calls c.Allows :=
  calls_ask (c := Call.data (.alter key f)) hk

theorem on_checkExpiration : (Store.checkExpiration key).Calls c.Allows := by
  refine (on_expirationsGet hk).bind fun d => ?_
  cases d with
  | none => exact calls_pure false
  | some expireAt =>
    refine Calls.bind (calls_ask (c := Call.instantNow) trivial) fun now => ?_
    split
    · refine (on_dataRemove hk).bind fun _ => ?_
      exact (on_expirationsRemove hk).bind fun _ => calls_pure true
    · exact calls_pure false

theorem on_lookup : (Store.lookup key).Calls c.Allows := by
  refine (on_checkExpiration hk).bind fun expired => ?_
  cases expired with
  | true => exact calls_pure none
  | false => exact calls_ask (c := Call.data (.get key)) hk

theorem on_setExpiration (expireMs : Option UInt64) (hd : expireMs ≠ none → c.deadlines) :
    (Store.setExpiration key expireMs).Calls c.Allows := by
  cases expireMs with
  | none => exact (on_expirationsRemove hk).bind fun _ => calls_pure ()
  | some ms =>
    refine Calls.bind (calls_ask (c := Call.instantNow) trivial) fun now => ?_
    have hallows : c.Allows (.expirations (.alter key fun _ => some (now + fromMillis ms))) :=
      ⟨hk, fun hnot => absurd (hd nofun) hnot⟩
    exact Calls.bind (calls_ask hallows) fun _ => calls_pure ()

end Methods

theorem Within.calls {c : Caps} {α : Type} {m : StoreM α} (h : Within c m) :
    m.Calls c.Allows := by
  induction h with
  | pure a => exact calls_pure a
  | fault e h => trivial
  | bind hm hf ihm ihf => exact ihm.bind ihf
  | lookup key hk => exact on_lookup hk
  | upsert key init f hk hw hinit hf =>
    refine (on_checkExpiration hk).bind fun _ => ?_
    exact (on_dataAlter hk _).bind fun old => calls_pure _
  | amend key absent f hk hw hf =>
    refine (on_checkExpiration hk).bind fun expired => ?_
    cases expired with
    | true => exact calls_pure absent
    | false =>
      refine (on_dataAlter hk _).bind fun old => ?_
      cases old with
      | none => exact calls_pure absent
      | some value =>
        dsimp only
        split
        · refine (on_dataRemove hk).bind fun _ => ?_
          exact (on_expirationsRemove hk).bind fun _ => calls_pure _
        · exact calls_pure _
  | set key value expireMs hk hw hd hv =>
    exact (on_dataAlter hk fun _ => some (.string value)).bind fun _ =>
      on_setExpiration hk expireMs hd
  | expire key ms hk hw hd =>
    refine (on_lookup hk).bind fun value => ?_
    cases value with
    | none => exact calls_pure false
    | some value => exact (on_setExpiration hk (some ms) fun _ => hd).bind fun _ => calls_pure true
  | pttl key hk =>
    refine ((on_lookup hk).bind fun value => calls_pure value.isSome).bind fun present => ?_
    cases present with
    | false => exact calls_pure (-2)
    | true =>
      refine (on_expirationsGet hk).bind fun d => ?_
      cases d with
      | none => exact calls_pure (-1)
      | some expireAt =>
        exact Calls.bind (calls_ask (c := Call.instantNow) trivial) fun now => calls_pure _

/-! ### Commands -/

/-- The command works on the keys it names and on nothing else. -/
def Command.onKeys : Command → Bool
  | .keys _ | .flushAll | .info => false
  | _ => true

variable (F : FloatText) (ord : IterOrder) (info : Bytes)

theorem on_execute (cmd : Command) (hkeys : cmd.onKeys = true) :
    (cmd.execute F ord info).Calls (cmd.caps fun _ => True).Allows := by
  by_cases hwhole : cmd.isWhole = true
  · match cmd, hkeys, hwhole with
    | .del ks, _, _ =>
      refine Calls.bind (Calls.foldlM ks 0 fun removed key hk => ?_) fun n => calls_pure (count n)
      have hk : (Command.caps (fun _ => True) (.del ks)).keys key := hk
      refine (on_dataRemove hk).bind fun value => ?_
      exact (on_expirationsRemove hk).bind fun _ => calls_pure _
  · have hwithin := within_execute Closed.all F ord info cmd (by simpa using hwhole)
      fun _ _ => trivial
    exact hwithin.calls

theorem execute_permanent (cmd : Command) (hkeys : cmd.onKeys = true)
    (hd : cmd.setsDeadline = false) (now : Reading) {s : Store} {key : Str}
    (h : s.expirations[key]? = none) :
    ((cmd.execute F ord info).runAt now s).2.expirations[key]? = none := by
  have hcall : ∀ x (s : Store), (cmd.caps fun _ => True).Allows x → s.expirations[key]? = none →
      (Call.run now x s).2.expirations[key]? = none := fun x s hx hs =>
    hx.permanent (by simp [Command.caps, hd]) hs
  exact Calls.exec hcall (on_execute F ord info cmd hkeys) h

theorem execute_untouched (cmd : Command) (hkeys : cmd.onKeys = true) (now : Reading) (s : Store)
    {key : Str} (hkey : key ∉ cmd.keyList) :
    ((cmd.execute F ord info).runAt now s).2.data[key]? = s.data[key]? ∧
      ((cmd.execute F ord info).runAt now s).2.expirations[key]? = s.expirations[key]? := by
  have hcall : ∀ x (u : Store), (cmd.caps fun _ => True).Allows x →
      u.data[key]? = s.data[key]? ∧ u.expirations[key]? = s.expirations[key]? →
      (Call.run now x u).2.data[key]? = s.data[key]? ∧
        (Call.run now x u).2.expirations[key]? = s.expirations[key]? := by
    intro x u hx hu
    obtain ⟨hdata, hexpirations⟩ := hx.untouched hkey
    exact ⟨hdata.trans hu.1, hexpirations.trans hu.2⟩
  exact Calls.exec hcall (on_execute F ord info cmd hkeys) ⟨rfl, rfl⟩

/-- Commands that share no key leave the same store, whichever comes first. -/
theorem execute_comm (cmd cmd' : Command) (hkeys : cmd.onKeys = true) (hkeys' : cmd'.onKeys = true)
    (hapart : List.Disjoint cmd.keyList cmd'.keyList) (now now' : Reading) (s : Store) :
    let m := cmd.execute F ord info
    let m' := cmd'.execute F ord info
    (m.runAt now (m'.runAt now' s).2).1 = (m.runAt now s).1 ∧
      (m'.runAt now' (m.runAt now s).2).1 = (m'.runAt now' s).1 ∧
      (m.runAt now (m'.runAt now' s).2).2 = (m'.runAt now' (m.runAt now s).2).2 :=
  exec_comm (on_execute F ord info cmd hkeys) (on_execute F ord info cmd' hkeys')
    (fun _ _ hc hc' => hc.commute hc' (fun _ hk hk' => hapart hk hk') now now') s

/-- Commands that share no key give the same replies and the same dataset in either order. -/
theorem independent_commands_commute (cmd cmd' : Command) (hkeys : cmd.onKeys = true)
    (hkeys' : cmd'.onKeys = true) (hapart : List.Disjoint cmd.keyList cmd'.keyList)
    (now : Reading) (s : Store) :
    let run := fun (c : Command) (s : Store) => (c.execute F ord info).runAt now s
    (run cmd s).1 = (run cmd (run cmd' s).2).1 ∧ (run cmd' (run cmd s).2).1 = (run cmd' s).1 ∧
      (run cmd' (run cmd s).2).2.live now.instant =
        (run cmd (run cmd' s).2).2.live now.instant := by
  obtain ⟨hreply, hreply', hstore⟩ :=
    execute_comm F ord info cmd cmd' hkeys hkeys' hapart now now s
  exact ⟨hreply.symm, hreply', congrArg (fun s' => s'.live now.instant) hstore.symm⟩

/-- A counter and a list, in a store with a deadline that no value has. -/
theorem independent_commands_commute_incr :
    let F : FloatText := noFloats
    let s : Store := ⟨∅, (∅ : ExtTreeMap Str Instant).insert (Str.lit "n") 5⟩
    let run := fun (c : Command) (s : Store) => (c.execute F .sorted []).runAt ⟨9, 0⟩ s
    let incr := Command.incr (Str.lit "n")
    let rPush := Command.rPush (Str.lit "l") [Str.utf8 "x"]
    (run incr s).1 = (run incr (run rPush s).2).1 ∧ (run rPush (run incr s).2).1 = (run rPush s).1 ∧
      (run rPush (run incr s).2).2.live 9 = (run incr (run rPush s).2).2.live 9 := by
  have hapart : List.Disjoint [Str.lit "n"] [Str.lit "l"] :=
    List.disjoint_singleton.mpr (by decide)
  exact independent_commands_commute _ .sorted [] (.incr _) (.rPush _ _) rfl rfl hapart ⟨9, 0⟩ _

end FireRedis
