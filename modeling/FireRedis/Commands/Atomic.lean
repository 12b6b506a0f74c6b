import FireRedis.Commands.Transparent
import FireRedis.Server

/-!
# Error replies change nothing

A handler replies with an error before its first write: the type check stands in
front of the body, KEYS looks at its pattern first, and a counter that cannot be
read or would overflow is put back as it was. No other end of a handler is an
error.
-/

namespace FireRedis
open Std
open Program (Returns returns_pure)

def Value.isError : Value → Bool
  | .error _ => true
  | _ => false

/-! ### The type check -/

section Spec

variable (s : Store) (now : Reading) (key : Str)

theorem typeOf_spec : (Store.typeOf key).runAt now s =
    (.ok ((s.live now.instant key).map fun e => Store.typeName e.value),
      s.check now.instant key) := by
  rw [Store.typeOf, runAt_bind_ok now (Store.lookup_spec s now key), Option.map_map]
  rfl

theorem ensureType_spec (expected : Str) : (ensureType key expected).runAt now s =
    (.ok ((s.live now.instant key).bind fun e =>
      if Store.typeName e.value ≠ expected then some wrongType else none),
      s.check now.instant key) := by
  rw [ensureType, runAt_bind_ok now (typeOf_spec s now key)]
  cases s.live now.instant key with
  | none => rfl
  | some e => rfl

theorem withType_spec (expected : String) (body : StoreM Value)
    (h : ∀ e, s.live now.instant key = some e → Store.typeName e.value = Str.lit expected) :
    (withType key expected body).runAt now s = body.runAt now (s.check now.instant key) := by
  rw [withType, runAt_bind_ok now (ensureType_spec s now key _)]
  cases he : s.live now.instant key with
  | none => rfl
  | some e => rw [Option.bind_some, if_neg (not_not.mpr (h e he))]

theorem withType_refuses (expected : String) (body : StoreM Value) {e : Entry}
    (he : s.live now.instant key = some e) (hne : Store.typeName e.value ≠ Str.lit expected) :
    (withType key expected body).runAt now s = (.ok wrongType, s.check now.instant key) := by
  rw [withType, runAt_bind_ok now (ensureType_spec s now key _), he, Option.bind_some, if_pos hne]
  rfl

theorem read_spec (expected : String) {α : Type} (absent : α) (f : StoredValue → StoreM α)
    (reply : α → Value) :
    (withType key expected (Store.view key absent f >>= fun a => pure (reply a))).runAt now s =
      match s.live now.instant key with
      | none => (.ok (reply absent), s.check now.instant key)
      | some e =>
        if Store.typeName e.value = Str.lit expected then
          (f e.value >>= fun a => pure (reply a)).runAt now (s.check now.instant key)
        else (.ok wrongType, s.check now.instant key) := by
  have hview := Store.view_spec (s.check now.instant key) now key absent f
  rw [Store.live_check, Store.check_check] at hview
  cases he : s.live now.instant key with
  | none =>
    rw [withType_spec s now key expected _ (by simp [he]), runAt_bind, hview, he]
    rfl
  | some e =>
    dsimp only
    split
    · rename_i htype
      rw [withType_spec s now key expected _ (by simp [he, htype]), runAt_bind, hview, he,
        runAt_bind]
    · rename_i htype
      exact withType_refuses s now key expected _ he htype

end Spec

section Typed

variable {P : StoredValue → Prop} {s : Store} (hs : s.Inv P) (now : Reading) (key : Str)
  (expected : String) (body : StoreM Value)
include hs

theorem withType_match
    (h : ∀ e, s.live now.instant key = some e → Store.typeName e.value = Str.lit expected) :
    (withType key expected body).runAt now s = body.runAt now (s.touch now.instant key) := by
  rw [withType_spec s now key expected body h, Store.check_eq hs]

theorem withType_mismatch {e : Entry} (he : s.live now.instant key = some e)
    (hne : Store.typeName e.value ≠ Str.lit expected) :
    (withType key expected body).runAt now s = (.ok wrongType, s.touch now.instant key) := by
  rw [withType_refuses s now key expected body he hne, Store.check_eq hs]

omit body in
theorem read_run {α : Type} (absent : α) (f : StoredValue → StoreM α) (reply : α → Value) :
    (withType key expected (Store.view key absent f >>= fun a => pure (reply a))).runAt now s =
      match s.live now.instant key with
      | none => (.ok (reply absent), s.touch now.instant key)
      | some e =>
        if Store.typeName e.value = Str.lit expected then
          (f e.value >>= fun a => pure (reply a)).runAt now (s.touch now.instant key)
        else (.ok wrongType, s.touch now.instant key) := by
  rw [read_spec, Store.check_eq hs]

/-- Behind a body that ends with no error, an error is the type check's. -/
theorem withType_error {body : StoreM Value} (hbody : body.Returns fun v => v.isError = false)
    {text : Str} {s' : Store}
    (hrun : (withType key expected body).runAt now s = (.ok (.error text), s')) :
    s'.live now.instant = s.live now.instant := by
  by_cases hmatch : ∀ e, s.live now.instant key = some e →
      Store.typeName e.value = Str.lit expected
  · rw [withType_match hs now key expected body hmatch] at hrun
    cases hbody.exec (Call.run now) hrun
  · obtain ⟨e, hne⟩ := not_forall.mp hmatch
    obtain ⟨he, hne⟩ := Classical.not_imp.mp hne
    rw [withType_mismatch hs now key expected body he hne] at hrun
    rw [← (Prod.mk.inj hrun).2, Store.live_touch]

end Typed

/-! ### Counters -/

section Counters

theorem addToString_error {delta : Int64} {v : StoredValue} {text : Str}
    (h : (Store.addToString delta v).1 = .error text) : (Store.addToString delta v).2 = v := by
  cases v with
  | string b =>
    unfold Store.addToString at h ⊢
    dsimp only at h ⊢
    cases hutf : Str.fromUtf8 b with
    | none => rfl
    | some current =>
      rw [hutf] at h
      dsimp only at h ⊢
      cases hparse : Decimal.parseI64 current.bytes with
      | none => rfl
      | some n =>
        rw [hparse] at h
        dsimp only at h ⊢
        cases hadd : Store.checkedAdd n delta with
        | none => rfl
        | some sum =>
          rw [hadd] at h
          cases h
  | _ => rfl

theorem live_put_entry {s : Store} {t : Instant} {key : Str} {e : Entry}
    (he : s.live t key = some e) : (s.put key (some e.value) e.deadline).live t = s.live t := by
  have htouch : s.touch t key = s.put key (some e.value) e.deadline := by
    rw [Store.touch, he]
    rfl
  rw [← htouch, Store.live_touch]

theorem counter_error {s : Store} (hs : s.Inv fun _ => True) (now : Reading) (key : Str)
    {delta : Int64} {n : Int64}
    (hzero : (Store.addToString delta (.string (Str.utf8 "0"))).1 = .ok n)
    {text : Str} {s' : Store}
    (hrun : (Store.adjustCounter key delta).runAt now s = (.ok (.error text), s')) :
    s'.live now.instant = s.live now.instant := by
  rw [Store.adjustCounter, Store.upsert_run hs] at hrun
  obtain ⟨hreply, hstore⟩ := Prod.mk.inj hrun
  have herror := Except.ok.inj hreply
  cases he : s.live now.instant key with
  | none =>
    rw [he] at herror
    cases hzero.symm.trans herror
  | some e =>
    rw [he] at herror hstore
    have hsame := addToString_error herror
    rw [← hstore, hsame]
    exact live_put_entry he

theorem counterReply_error {m : StoreM (Except Str Int64)} {now : Reading} {s s' : Store}
    {text : Str}
    (hrun : (m >>= fun r => return counterReply r).runAt now s = (.ok (.error text), s')) :
    m.runAt now s = (.ok (.error text), s') := by
  rw [runAt_bind] at hrun
  rcases hm : m.runAt now s with ⟨p | r, u⟩
  · rw [hm] at hrun
    cases (Prod.mk.inj hrun).1
  · rw [hm] at hrun
    obtain ⟨hreply, hstore⟩ := Prod.mk.inj hrun
    rw [← show u = s' from hstore]
    cases r with
    | ok n => cases hreply
    | error e =>
      have htext : Value.error e = .error text := Except.ok.inj hreply
      rw [Value.error.inj htext]

end Counters

/-! ### Commands -/

section Execute

variable (F : FloatText) (ord : IterOrder) (info : Bytes) (now : Reading)

theorem execute_error (cmd : Command) {s s' : Store} (hs : s.Inv fun _ => True) {text : Str}
    (hrun : (cmd.execute F ord info).runAt now s = (.ok (.error text), s')) :
    s'.live now.instant = s.live now.instant := by
  by_cases hw : cmd.writes = false
  · have hquiet := execute_quiet F ord info now cmd hw hs
    rw [hrun] at hquiet
    exact hquiet
  · -- A handler that never ends with an error, and one behind the type check.
    have huntyped : ∀ {m : StoreM Value}, (m.Returns fun v => v.isError = false) →
        m.runAt now s = (.ok (.error text), s') → s'.live now.instant = s.live now.instant := by
      intro m hm hr
      cases hm.exec (Call.run now) hr
    have htyped : ∀ {α : Type} {key : Str} {expected : String} {m : StoreM α}
        {reply : α → Value}, (∀ a, (reply a).isError = false) →
        (withType key expected (m >>= fun a => pure (reply a))).runAt now s =
          (.ok (.error text), s') → s'.live now.instant = s.live now.instant :=
      fun hreply hr => withType_error hs now _ _ (.last fun a => returns_pure (hreply a)) hr
    cases cmd with
    | set k v px condition =>
      apply huntyped _ hrun
      apply Returns.last
      intro present
      split
      · exact returns_pure rfl
      · split
        · exact returns_pure rfl
        · exact .last fun _ => returns_pure rfl
    | del ks => exact huntyped (.last fun _ => returns_pure rfl) hrun
    | expire k ms =>
      apply huntyped _ hrun
      apply Returns.last
      intro found
      cases found <;> exact returns_pure rfl
    | incr k => exact counter_error hs now k rfl (counterReply_error hrun)
    | decr k => exact counter_error hs now k rfl (counterReply_error hrun)
    | mSet entries => exact huntyped (.last fun _ => returns_pure rfl) hrun
    | append k v => exact htyped (fun _ => rfl) hrun
    | flushAll => exact huntyped (.last fun _ => returns_pure rfl) hrun
    | lPush k vals =>
      apply withType_error hs now k "list" _ hrun
      split
      · exact returns_pure rfl
      · exact .last fun _ => returns_pure rfl
    | rPush k vals =>
      apply withType_error hs now k "list" _ hrun
      split
      · exact returns_pure rfl
      · exact .last fun _ => returns_pure rfl
    | lPop k => exact htyped (fun a => by cases a <;> rfl) hrun
    | rPop k => exact htyped (fun a => by cases a <;> rfl) hrun
    | sAdd k members => exact htyped (fun _ => rfl) hrun
    | sRem k members => exact htyped (fun _ => rfl) hrun
    | sPop k n =>
      apply withType_error hs now k "set" _ hrun
      cases n with
      | none => exact .last fun popped => by cases popped.getLast? <;> exact returns_pure rfl
      | some n => exact .last fun _ => returns_pure rfl
    | hSet k fields => exact htyped (fun _ => rfl) hrun
    | hDel k fields => exact htyped (fun _ => rfl) hrun
    | zAdd k entries => exact htyped (fun _ => rfl) hrun
    | zRem k members => exact htyped (fun _ => rfl) hrun
    | _ => exact absurd rfl hw

/-- Where the arguments parse to no command, nothing is executed; any command
that replies with an error leaves every live key with its value and deadline. -/
theorem error_reply_atomic (s : Store) (hs : s.Inv fun _ => True) :
    (∀ args e, tryFrom F args = .error e →
      ((respond F ord info (.array (some args))).runAt now s).2.live now.instant =
        s.live now.instant) ∧
    ∀ (cmd : Command) text s', (cmd.execute F ord info).runAt now s = (.ok (.error text), s') →
      s'.live now.instant = s.live now.instant := by
  refine ⟨fun args e he => ?_, fun cmd text s' => execute_error F ord info now cmd hs⟩
  cases args with
  | nil => rfl
  | cons arg args =>
    simp only [respond, he]
    rfl

/-- INCR of a list with a deadline. -/
theorem error_reply_atomic_incr :
    let F : FloatText := noFloats
    let s := Store.empty.put (Str.lit "k") (some (.list [Str.utf8 "v"])) (some 5)
    let r := ((Command.incr (Str.lit "k")).execute F .sorted []).runAt ⟨3, 0⟩ s
    r.1 = .ok (.error (Str.lit "Key does not hold a string value")) ∧
      r.2.live 3 = s.live 3 := by
  intro F s r
  have hs : s.Inv fun _ => True :=
    Store.inv_put (Store.inv_empty _) _ (fun _ _ => trivial) (fun h => by cases h)
  have hreply : r.1 = .ok (.error (Str.lit "Key does not hold a string value")) := rfl
  refine ⟨hreply, (error_reply_atomic F .sorted [] ⟨3, 0⟩ s hs).2 (.incr (Str.lit "k"))
    (Str.lit "Key does not hold a string value") r.2 ?_⟩
  rw [← hreply]

end Execute

end FireRedis
