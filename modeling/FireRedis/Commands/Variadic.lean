import FireRedis.Commands.Writes

/-!
# Many arguments at once or in parts

A write of many arguments is compared with the same write of the first and then
of the remaining arguments, all at one clock reading. LPUSH is compared with its
single pushes; it pushes its last value first.
-/

namespace FireRedis
open Std Counted

section Parts

variable {α : Type} (now : Reading) (s : Store) (run : List α → StoreM Value) (xs ys : List α)

/-- All arguments at once and in two parts lead to one live dataset. -/
def Composes : Prop :=
  ((run (xs ++ ys)).runAt now s).2.live now.instant =
    ((run ys).runAt now ((run xs).runAt now s).2).2.live now.instant

/-- The replies are numbers, and those of the parts add up. -/
def RepliesAdd : Prop :=
  ∃ m n, ((run xs).runAt now s).1 = .ok (count m) ∧
    ((run ys).runAt now ((run xs).runAt now s).2).1 = .ok (count n) ∧
    ((run (xs ++ ys)).runAt now s).1 = .ok (count (m + n))

end Parts

section Handlers

variable {σ α : Type} {K : Kind σ} {key : Str} {run : List α → StoreM Value}
  {hit : σ → α → Bool} {step : σ → α → σ} {now : Reading} {s : Store} {xs ys : List α}

/-- A key of another type is left alone every time. -/
theorem composes_of_refused {name : String} (body : List α → StoreM Value)
    (hrun : ∀ items, run items = withType key name (body items))
    (h : ¬ Typed s now.instant key name) : Composes now s run xs ys := by
  obtain ⟨e, hne⟩ := not_forall.mp h
  obtain ⟨he, hne⟩ := Classical.not_imp.mp hne
  have hcheck : (s.check now.instant key).live now.instant key = some e := by
    rw [Store.live_check, he]
  rw [Composes, hrun, hrun, hrun, withType_refuses s now key name _ he hne,
    withType_refuses s now key name _ he hne, withType_refuses _ now key name _ hcheck hne,
    Store.live_check, Store.live_check, Store.live_check]

theorem composes_of_typed {name : String} (body : List α → StoreM Value)
    (hrun : ∀ items, run items = withType key name (body items)) {reply : Prop}
    (htyped : Typed s now.instant key name → Composes now s run xs ys ∧ reply) :
    Composes now s run xs ys ∧ (Typed s now.instant key name → reply) := by
  by_cases ht : Typed s now.instant key name
  · exact ⟨(htyped ht).1, fun _ => (htyped ht).2⟩
  · exact ⟨composes_of_refused body hrun ht, fun ht' => absurd ht' ht⟩

theorem Inserts.composes (h : Inserts K key run hit step) (body : List α → StoreM Value)
    (hrun : ∀ items, run items = withType key K.name (body items)) (hxs : xs ≠ [])
    (hys : ys ≠ []) : Composes now s run xs ys ∧
      (Typed s now.instant key K.name → RepliesAdd now s run xs ys) := by
  apply composes_of_typed body hrun
  intro ht
  obtain ⟨x, hx⟩ := K.under_of_typed ht
  have hfirst := h s now xs x hxs hx
  have hunder : K.Under (s.put key (some (K.wrap (counted hit step xs x).2))
      (s.pending now.instant key)) now.instant key (counted hit step xs x).2 := by
    rw [Kind.Under, Store.live_put_pending]
  have hsecond := h _ now ys _ hys hunder
  have hwhole := h s now (xs ++ ys) x (List.append_ne_nil_of_left_ne_nil hxs ys) hx
  rw [Store.pending_put, Store.put_put] at hsecond
  rw [counted_append] at hwhole
  refine ⟨?_, _, _, by rw [hfirst], by rw [hfirst, hsecond], by rw [hwhole]⟩
  rw [Composes, hwhole, hfirst, hsecond]

theorem Removes.composes (h : Removes K key run hit step) (body : List α → StoreM Value)
    (hrun : ∀ items, run items = withType key K.name (body items))
    (hempty : ∀ x, K.isEmpty x = true → ∀ a, hit x a = false ∧ step x a = x) :
    Composes now s run xs ys ∧
      (Typed s now.instant key K.name → RepliesAdd now s run xs ys) := by
  apply composes_of_typed body hrun
  intro ht
  obtain ⟨x, hx⟩ := K.under_of_typed ht
  have hfirst := h s now xs x hx
  have hwhole := h s now (xs ++ ys) x hx
  rw [counted_append] at hwhole
  cases he : s.live now.instant key with
  | none =>
    rw [he] at hfirst hwhole
    have hsecond := h _ now ys x (under_check K now hx)
    rw [Store.live_check, he, Store.check_check] at hsecond
    refine ⟨?_, 0, 0, by rw [hfirst], by rw [hfirst, hsecond], by rw [hwhole]⟩
    rw [Composes, hwhole, hfirst, hsecond]
  | some e =>
    rw [he] at hfirst hwhole
    dsimp only at hfirst hwhole
    cases hdrained : K.isEmpty (counted hit step xs x).2 with
    | true =>
      -- The second call finds no key, the single call goes on with nothing.
      have hrest : counted hit step ys (counted hit step xs x).2 =
          (0, (counted hit step xs x).2) :=
        counted_fixed hit step fun a _ => hempty _ hdrained a
      have hnone : (s.put key none none).live now.instant key = none := Store.live_put_self ..
      have hunder : K.Under (s.put key none none) now.instant key K.fresh := by
        rw [Kind.Under, hnone]
      have hsecond := h _ now ys _ hunder
      rw [hrest, hdrained, if_pos rfl] at hwhole
      rw [hdrained, if_pos rfl] at hfirst
      rw [hnone] at hsecond
      refine ⟨?_, _, 0, by rw [hfirst], by rw [hfirst, hsecond], by rw [hwhole]⟩
      rw [Composes, hwhole, hfirst, hsecond, Store.live_check]
    | false =>
      have hlive := Store.live_put_value he (K.wrap (counted hit step xs x).2)
      have hunder : K.Under (s.put key (some (K.wrap (counted hit step xs x).2)) e.deadline)
          now.instant key (counted hit step xs x).2 := by
        rw [Kind.Under, hlive]
      have hsecond := h _ now ys _ hunder
      rw [hdrained, if_neg Bool.false_ne_true] at hfirst
      rw [hlive] at hsecond
      dsimp only at hsecond
      rw [Store.put_put, Store.put_put] at hsecond
      refine ⟨?_, _, _, by rw [hfirst], by rw [hfirst, hsecond], by rw [hwhole]⟩
      rw [Composes, hwhole, hfirst, hsecond]

end Handlers

/-! ### The commands -/

section Commands

variable (now : Reading) (s : Store)

theorem rPush_composes (key : Str) {xs ys : List Bytes} (hxs : xs ≠ []) (hys : ys ≠ []) :
    Composes now s (handleRPush key) xs ys ∧ (Typed s now.instant key "list" →
      ((handleRPush key (xs ++ ys)).runAt now s).1 =
        ((handleRPush key ys).runAt now ((handleRPush key xs).runAt now s).2).1) := by
  apply composes_of_typed _ (fun _ => rfl)
  intro ht
  obtain ⟨items, hx⟩ := Kind.list.under_of_typed ht
  have hfirst := rPush_spec now hx hxs
  have hunder : Kind.list.Under (s.put key (some (.list (items ++ xs)))
      (s.pending now.instant key)) now.instant key (items ++ xs) := by
    rw [Kind.Under, Store.live_put_pending]
    rfl
  have hsecond := rPush_spec now hunder hys
  have hwhole := rPush_spec now hx (List.append_ne_nil_of_left_ne_nil hxs ys)
  rw [Store.pending_put, Store.put_put, List.append_assoc] at hsecond
  refine ⟨?_, ?_⟩
  · show Composes now s (handleRPush key) xs ys
    rw [Composes, hwhole, hfirst, hsecond]
  · rw [hwhole, hfirst, hsecond, List.length_append, List.length_append, Nat.add_assoc]

theorem mSet_run (entries : List (Str × Bytes)) : (handleMset entries).runAt now s =
    (.ok ok, entries.foldl (fun s e => s.put e.1 (some (.string e.2)) none) s) := by
  induction entries generalizing s with
  | nil => rfl
  | cons entry entries ih =>
    rw [handleMset, List.foldlM_cons, bind_assoc, runAt_bind_ok now (Store.set_run now ..)]
    exact ih _

end Commands

/-- All arguments in one call or in two calls: the live dataset is the same for
every variadic write; on a key of its type the replies add up, and the reply of
RPUSH is that of the second call. -/
theorem variadic_composes (F : FloatText) (ord : IterOrder) (info : Bytes) (now : Reading)
    (s : Store) :
    let run {α : Type} (cmd : List α → Command) (items : List α) :=
      (cmd items).execute F ord info
    (∀ key xs ys, xs ≠ [] → ys ≠ [] → Composes now s (run (.rPush key)) xs ys ∧
      (Typed s now.instant key "list" → ((run (.rPush key) (xs ++ ys)).runAt now s).1 =
        ((run (.rPush key) ys).runAt now ((run (.rPush key) xs).runAt now s).2).1)) ∧
    (∀ key xs ys, xs ≠ [] → ys ≠ [] → Composes now s (run (.sAdd key)) xs ys ∧
      (Typed s now.instant key "set" → RepliesAdd now s (run (.sAdd key)) xs ys)) ∧
    (∀ key xs ys, xs ≠ [] → ys ≠ [] → Composes now s (run (.sRem key)) xs ys ∧
      (Typed s now.instant key "set" → RepliesAdd now s (run (.sRem key)) xs ys)) ∧
    (∀ key xs ys, xs ≠ [] → ys ≠ [] → Composes now s (run (.hSet key)) xs ys ∧
      (Typed s now.instant key "hash" → RepliesAdd now s (run (.hSet key)) xs ys)) ∧
    (∀ key xs ys, xs ≠ [] → ys ≠ [] → Composes now s (run (.hDel key)) xs ys ∧
      (Typed s now.instant key "hash" → RepliesAdd now s (run (.hDel key)) xs ys)) ∧
    (∀ key xs ys, xs ≠ [] → ys ≠ [] → Composes now s (run (.zAdd key)) xs ys ∧
      (Typed s now.instant key "zset" → RepliesAdd now s (run (.zAdd key)) xs ys)) ∧
    (∀ key xs ys, xs ≠ [] → ys ≠ [] → Composes now s (run (.zRem key)) xs ys ∧
      (Typed s now.instant key "zset" → RepliesAdd now s (run (.zRem key)) xs ys)) ∧
    (∀ xs ys, xs ≠ [] → ys ≠ [] → Composes now s (run .del) xs ys ∧
      RepliesAdd now s (run .del) xs ys) ∧
    ∀ xs ys, xs ≠ [] → ys ≠ [] → Composes now s (run .mSet) xs ys := by
  intro run
  refine ⟨?_, ?_, ?_, ?_, ?_, ?_, ?_, ?_, ?_⟩
  · exact fun key xs ys hxs hys => rPush_composes now s key hxs hys
  · exact fun key xs ys hxs hys => (sAdd_inserts key).composes _ (fun _ => rfl) hxs hys
  · exact fun key xs ys _ _ => (sRem_removes key).composes _ (fun _ => rfl) set_empty
  · exact fun key xs ys hxs hys => (hSet_inserts key).composes _ (fun _ => rfl) hxs hys
  · exact fun key xs ys _ _ => (hDel_removes key).composes _ (fun _ => rfl) hash_empty
  · exact fun key xs ys hxs hys => (zAdd_inserts key).composes _ (fun _ => rfl) hxs hys
  · exact fun key xs ys _ _ => (zRem_removes key).composes _ (fun _ => rfl) zset_empty
  · intro xs ys _ _
    have hrun : ∀ s items, (run .del items).runAt now s =
        (.ok (count (s.forgotten items)), s.forget items) :=
      fun s items => handleDel_run now s items
    refine ⟨?_, s.forgotten xs, (s.forget xs).forgotten ys, ?_, ?_, ?_⟩
    · rw [Composes, hrun, hrun, hrun, Store.forget_append]
    · rw [hrun]
    · rw [hrun, hrun]
    · rw [hrun, Store.forgotten_append]
  · intro xs ys _ _
    have hrun : ∀ s items, (run .mSet items).runAt now s =
        (.ok ok, items.foldl (fun s e => s.put e.1 (some (.string e.2)) none) s) :=
      fun s items => mSet_run now s items
    rw [Composes, hrun, hrun, hrun, List.foldl_append]

/-- SREM of the only member of a set and of another one. -/
theorem variadic_composes_drained :
    let s := Store.empty.put (Str.lit "k") (some (.set {Str.utf8 "a"})) (some 5)
    RepliesAdd ⟨3, 0⟩ s (handleSRem (Str.lit "k")) [Str.utf8 "a"] [Str.utf8 "b"] := by
  intro s
  have hlive : s.live 3 (Str.lit "k") = some ⟨.set {Str.utf8 "a"}, some 5⟩ :=
    Store.live_put_self ..
  obtain ⟨-, -, hrem, -⟩ := variadic_composes noFloats .sorted []
    ⟨3, 0⟩ s
  refine (hrem (Str.lit "k") [Str.utf8 "a"] [Str.utf8 "b"] (by simp) (by simp)).2 ?_
  intro e he
  rw [hlive] at he
  rw [← Option.some.inj he]
  rfl

/-! ### LPUSH -/

section LPush

variable (F : FloatText) (ord : IterOrder) (info : Bytes) (now : Reading)

theorem singles_spec {vals : List Bytes} (hne : vals ≠ []) {s : Store} {key : Str}
    {items : List Bytes} (hx : Kind.list.Under s now.instant key items) (first : Value) :
    (vals.foldlM (fun _ v => (Command.lPush key [v]).execute F ord info) first).runAt now s =
      (.ok (count (items.length + vals.length)),
        s.put key (some (.list (vals.reverse ++ items))) (s.pending now.instant key)) := by
  induction vals generalizing s items first with
  | nil => exact absurd rfl hne
  | cons v vals ih =>
    have hpush : ((Command.lPush key [v]).execute F ord info).runAt now s =
        (.ok (count (items.length + 1)),
          s.put key (some (.list (v :: items))) (s.pending now.instant key)) :=
      lPush_spec now hx (List.cons_ne_nil v [])
    rw [List.foldlM_cons, runAt_bind_ok now hpush]
    cases vals with
    | nil => rfl
    | cons v' vals =>
      have hunder : Kind.list.Under (s.put key (some (.list (v :: items)))
          (s.pending now.instant key)) now.instant key (v :: items) := by
        rw [Kind.Under, Store.live_put_pending]
        rfl
      rw [ih (List.cons_ne_nil v' vals) hunder, Store.pending_put, Store.put_put]
      simp [Nat.add_comm, Nat.add_left_comm]

/-- LPUSH of many values is the sequence of its single pushes exactly when they
read the same both ways. -/
theorem lPush_singles (s : Store) (key : Str) (vals : List Bytes) (hne : vals ≠ [])
    (ht : Typed s now.instant key "list") :
    let many := ((Command.lPush key vals).execute F ord info).runAt now s
    let singles := (vals.foldlM (fun _ v => (Command.lPush key [v]).execute F ord info)
      Value.null).runAt now s
    (many.1 = singles.1 ∧ many.2.live now.instant = singles.2.live now.instant) ↔
      vals.reverse = vals := by
  intro many singles
  obtain ⟨items, hx⟩ := Kind.list.under_of_typed ht
  have hmany : many = (.ok (count (items.length + vals.length)),
      s.put key (some (.list (vals ++ items))) (s.pending now.instant key)) :=
    lPush_spec now hx hne
  have hsingles : singles = (.ok (count (items.length + vals.length)),
      s.put key (some (.list (vals.reverse ++ items))) (s.pending now.instant key)) :=
    singles_spec F ord info now hne hx Value.null
  rw [hmany, hsingles]
  constructor
  · rintro ⟨-, hlive⟩
    have hkey := congrFun hlive key
    rw [Store.live_put_pending, Store.live_put_pending] at hkey
    have hlist := StoredValue.list.inj (Entry.mk.inj (Option.some.inj hkey)).1
    exact (List.append_cancel_right hlist).symm
  · intro hrev
    rw [hrev]
    exact ⟨rfl, rfl⟩

/-- LPUSH k a a. -/
theorem lPush_singles_twice :
    let F : FloatText := noFloats
    let many := ((Command.lPush (Str.lit "k") [Str.utf8 "a", Str.utf8 "a"]).execute F .sorted
      []).runAt ⟨0, 0⟩ Store.empty
    let singles := ([Str.utf8 "a", Str.utf8 "a"].foldlM (fun _ v =>
      (Command.lPush (Str.lit "k") [v]).execute F .sorted []) Value.null).runAt ⟨0, 0⟩ Store.empty
    many.1 = singles.1 ∧ many.2.live 0 = singles.2.live 0 := by
  intro F many singles
  refine (lPush_singles F .sorted [] ⟨0, 0⟩ Store.empty (Str.lit "k") [Str.utf8 "a", Str.utf8 "a"]
    (by simp) ?_).mpr rfl
  intro e he
  rw [Store.live_empty] at he
  cases he

/-- LPUSH k a b. -/
theorem lPush_two_values :
    let F : FloatText := noFloats
    let many := ((Command.lPush (Str.lit "k") [Str.utf8 "a", Str.utf8 "b"]).execute F .sorted
      []).runAt ⟨0, 0⟩ Store.empty
    let singles := ([Str.utf8 "a", Str.utf8 "b"].foldlM (fun _ v =>
      (Command.lPush (Str.lit "k") [v]).execute F .sorted []) Value.null).runAt ⟨0, 0⟩ Store.empty
    many.2.live 0 (Str.lit "k") = some ⟨.list [Str.utf8 "a", Str.utf8 "b"], none⟩ ∧
      singles.2.live 0 (Str.lit "k") = some ⟨.list [Str.utf8 "b", Str.utf8 "a"], none⟩ :=
  ⟨rfl, rfl⟩

end LPush

end FireRedis
