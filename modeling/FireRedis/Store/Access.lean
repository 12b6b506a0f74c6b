import FireRedis.Store.Live

/-!
# Programs within capabilities

`Within c m` says that `m` reaches the store only through the checked methods,
and what it may do with them: the keys it touches, the values it stores, and
whether it writes, sets deadlines or panics. The rules follow how handlers are
put together. Such a program keeps the store invariant, leaves other keys alone,
and gives a reply and a new dataset that depend only on the live entries of its
keys: keys that have expired but are still in the maps make no difference.
-/

namespace FireRedis
open Std

structure Caps where
  keys : Str → Prop
  values : StoredValue → Prop
  writes : Prop
  deadlines : Prop
  panics : Prop

inductive Within (c : Caps) : {α : Type} → StoreM α → Prop
  | pure {α : Type} (a : α) : Within c (pure a)
  | fault {α : Type} (e : Panic) (h : c.panics) : Within c (.fault e : StoreM α)
  | bind {α β : Type} {m : StoreM α} {f : α → StoreM β} (hm : Within c m)
      (hf : ∀ a, Within c (f a)) : Within c (m >>= f)
  | lookup (key : Str) (hk : c.keys key) : Within c (Store.lookup key)
  | upsert {α : Type} (key : Str) (init : StoredValue) (f : StoredValue → α × StoredValue)
      (hk : c.keys key) (hw : c.writes) (hinit : c.values (f init).2)
      (hf : ∀ v, c.values v → c.values (f v).2) : Within c (Store.upsert key init f)
  | amend {α : Type} (key : Str) (absent : α) (f : StoredValue → α × StoredValue × Bool)
      (hk : c.keys key) (hw : c.writes)
      (hf : ∀ v, c.values v → (f v).2.2 = false → c.values (f v).2.1) :
      Within c (Store.amend key absent f)
  | set (key : Str) (value : Bytes) (expireMs : Option UInt64) (hk : c.keys key)
      (hw : c.writes) (hd : expireMs ≠ none → c.deadlines) (hv : c.values (.string value)) :
      Within c (Store.set key value expireMs)
  | expire (key : Str) (ms : UInt64) (hk : c.keys key) (hw : c.writes) (hd : c.deadlines) :
      Within c (Store.expire key ms)
  | pttl (key : Str) (hk : c.keys key) : Within c (Store.pttl key)

/-! ### Deadlines -/

/-- A deadline that is set at `t`. -/
def SetAt (t d : Instant) : Prop := ∃ ms : UInt64, d = t + fromMillis ms

/-- Every deadline of the later store is one of the earlier store or set at `t`. -/
def NewDeadlines (t : Instant) (s s' : Store) : Prop :=
  ∀ (key : Str) d, s'.expirations[key]? = some d → s.expirations[key]? = some d ∨ SetAt t d

theorem NewDeadlines.refl (t : Instant) (s : Store) : NewDeadlines t s s := fun _ _ => Or.inl

theorem NewDeadlines.trans {t : Instant} {s s' s'' : Store} (h : NewDeadlines t s s')
    (h' : NewDeadlines t s' s'') : NewDeadlines t s s'' := by
  intro key d hd
  rcases h' key d hd with hold | hset
  · exact h key d hold
  · exact Or.inr hset

theorem NewDeadlines.put {t : Instant} {s : Store} {key : Str} {v : Option StoredValue}
    {d : Option Instant} (hd : ∀ x, d = some x → s.expirations[key]? = some x ∨ SetAt t x) :
    NewDeadlines t s (s.put key v d) := by
  intro j x hx
  rw [Store.put_expirations] at hx
  split at hx
  · rename_i hj
    rw [← hj]
    exact hd x hx
  · exact Or.inl hx

namespace Within

theorem foldlM {c : Caps} {α β : Type} (f : β → α → StoreM β) (items : List α) (init : β)
    (h : ∀ b, ∀ a ∈ items, Within c (f b a)) : Within c (items.foldlM f init) := by
  induction items generalizing init with
  | nil => exact pure init
  | cons a items ih =>
    rw [List.foldlM_cons]
    exact bind (h init a (List.mem_cons_self ..)) fun b =>
      ih b fun b x hx => h b x (List.mem_cons_of_mem _ hx)

theorem mapM {c : Caps} {α β : Type} (f : α → StoreM β) (items : List α)
    (h : ∀ a ∈ items, Within c (f a)) : Within c (items.mapM f) := by
  induction items with
  | nil => exact pure []
  | cons a items ih =>
    rw [List.mapM_cons]
    exact bind (h a (List.mem_cons_self ..)) fun b =>
      bind (ih fun x hx => h x (List.mem_cons_of_mem _ hx)) fun bs => pure (b :: bs)

/-! ### What a program within its capabilities does -/

/-- The difference between the stores before and after. -/
structure Effect (c : Caps) (t : Instant) (s s' : Store) : Prop where
  inv : s'.Inv c.values
  frame : ∀ key, ¬ c.keys key → s'.live t key = s.live t key
  quiet : ¬ c.writes → s'.live t = s.live t
  deadline : ∀ key e d, s'.live t key = some e → e.deadline = some d →
    (∃ e₀, s.live t key = some e₀ ∧ e₀.deadline = some d) ∨ (c.deadlines ∧ SetAt t d)
  times : NewDeadlines t s s'

theorem Effect.refl {c : Caps} {t : Instant} {s : Store} (hs : s.Inv c.values) :
    Effect c t s s where
  inv := hs
  frame _ _ := rfl
  quiet _ := rfl
  deadline _ e _ he hd := Or.inl ⟨e, he, hd⟩
  times := NewDeadlines.refl t s

theorem Effect.trans {c : Caps} {t : Instant} {s s' s'' : Store} (h : Effect c t s s')
    (h' : Effect c t s' s'') : Effect c t s s'' where
  inv := h'.inv
  frame key hk := (h'.frame key hk).trans (h.frame key hk)
  quiet hw := (h'.quiet hw).trans (h.quiet hw)
  deadline key e d he hd := by
    rcases h'.deadline key e d he hd with ⟨e₁, he₁, hd₁⟩ | hset
    · exact h.deadline key e₁ d he₁ hd₁
    · exact Or.inr hset
  times := h.times.trans h'.times

theorem deadline_of_live {t : Instant} {s : Store} {key : Str} {d : Instant}
    (h : (s.live t key).bind Entry.deadline = some d) : s.expirations[key]? = some d := by
  obtain ⟨e, he, hd⟩ := Option.bind_eq_some_iff.mp h
  rw [(liveOf_eq_some.mp he).2.1, hd]

theorem Effect.touch {c : Caps} {t : Instant} {s : Store} (hs : s.Inv c.values) (key : Str) :
    Effect c t s (s.touch t key) where
  inv := Store.inv_touch hs t key
  frame j _ := by rw [Store.live_touch]
  quiet _ := s.live_touch t key
  deadline j e d he hd := Or.inl ⟨e, by rw [← he, Store.live_touch], hd⟩
  times := NewDeadlines.put fun _ hd => Or.inl (deadline_of_live hd)

theorem Effect.put {c : Caps} {t : Instant} {s : Store} (hs : s.Inv c.values) {key : Str}
    {v : Option StoredValue} {d : Option Instant} (hk : c.keys key) (hw : c.writes)
    (hv : ∀ value, v = some value → c.values value) (hvd : v = none → d = none)
    (hd : ∀ x, d = some x →
      (s.live t key).bind Entry.deadline = some x ∨ (c.deadlines ∧ SetAt t x)) :
    Effect c t s (s.put key v d) where
  inv := Store.inv_put hs key hv hvd
  frame j hj := by
    have hne : j ≠ key := fun h => hj (h ▸ hk)
    rw [Store.live_put, Function.update_of_ne hne]
  quiet h := absurd hw h
  deadline j e x he hx := by
    rw [Store.live_put] at he
    by_cases hj : j = key
    · subst hj
      rw [Function.update_self] at he
      have hdx : d = some x := (liveOf_eq_some.mp he).2.1.trans hx
      exact (hd x hdx).imp_left Option.bind_eq_some_iff.mp
    · rw [Function.update_of_ne hj] at he
      exact Or.inl ⟨e, he, hx⟩
  times := NewDeadlines.put fun x hx => (hd x hx).imp deadline_of_live And.right

variable {c : Caps} {α : Type} {m : StoreM α} (now : Reading)

theorem effect (h : Within c m) {s : Store} (hs : s.Inv c.values) :
    Effect c now.instant s (m.runAt now s).2 := by
  induction h generalizing s with
  | pure a => exact Effect.refl hs
  | fault e h => exact Effect.refl hs
  | @bind α β m f hm hf ihm ihf =>
    have h₁ := ihm hs
    rw [runAt_bind]
    rcases hr : m.runAt now s with ⟨_ | a, s'⟩
    · rw [hr] at h₁
      exact h₁
    · rw [hr] at h₁
      exact h₁.trans (ihf a h₁.inv)
  | lookup key hk =>
    rw [Store.lookup_run hs]
    exact Effect.touch hs key
  | upsert key init f hk hw hinit hf =>
    rw [Store.upsert_run hs]
    apply Effect.put hs hk hw _ (by simp) fun x hx => Or.inl hx
    intro value hv
    rw [← Option.some.inj hv]
    cases he : s.live now.instant key with
    | none => exact hinit
    | some e => exact hf _ (Store.value_of_live hs he)
  | amend key absent f hk hw hf =>
    rw [Store.amend_run hs]
    cases he : s.live now.instant key with
    | none => exact Effect.put hs hk hw (by simp) (by simp) (by simp)
    | some e =>
      cases hr : (f e.value).2.2 with
      | true =>
        simp only [hr, ite_true]
        exact Effect.put hs hk hw (by simp) (by simp) (by simp)
      | false =>
        simp only [hr, Bool.false_eq_true, ite_false]
        apply Effect.put hs hk hw _ (by simp) fun x hx => Or.inl (by rw [he]; exact hx)
        intro value hv
        rw [← Option.some.inj hv]
        exact hf _ (Store.value_of_live hs he) hr
  | set key value expireMs hk hw hd hv =>
    rw [Store.set_run]
    apply Effect.put hs hk hw _ (by simp) _
    · intro v hvv
      rw [← Option.some.inj hvv]
      exact hv
    · intro x hx
      obtain ⟨ms, hms, rfl⟩ := Option.map_eq_some_iff.mp hx
      exact Or.inr ⟨hd (by simp [hms]), ms, rfl⟩
  | expire key ms hk hw hd =>
    rw [Store.expire_run hs]
    cases he : s.live now.instant key with
    | none => exact Effect.put hs hk hw (by simp) (by simp) (by simp)
    | some e =>
      apply Effect.put hs hk hw _ (by simp) fun x hx => Or.inr ⟨hd, ms, (Option.some.inj hx).symm⟩
      intro v hv
      rw [← Option.some.inj hv]
      exact Store.value_of_live hs he
  | pttl key hk =>
    rw [Store.pttl_run hs]
    exact Effect.touch hs key

theorem returns (h : Within c m) (hp : ¬ c.panics) {s : Store} (hs : s.Inv c.values) :
    ∃ a, (m.runAt now s).1 = .ok a := by
  induction h generalizing s with
  | pure a => exact ⟨a, rfl⟩
  | fault e h => exact absurd h hp
  | @bind α β m f hm hf ihm ihf =>
    obtain ⟨a, ha⟩ := ihm hs
    have h₁ := effect now hm hs
    rw [runAt_bind]
    rcases hr : m.runAt now s with ⟨_ | b, s'⟩
    · rw [hr] at ha
      cases ha
    · rw [hr] at h₁
      exact ihf b h₁.inv
  | lookup key hk => exact ⟨_, by rw [Store.lookup_run hs]⟩
  | upsert key init f hk hw hinit hf => exact ⟨_, by rw [Store.upsert_run hs]⟩
  | amend key absent f hk hw hf =>
    rw [Store.amend_run hs]
    cases s.live now.instant key with
    | none => exact ⟨_, rfl⟩
    | some e =>
      refine ⟨(f e.value).1, ?_⟩
      dsimp only
      split <;> rfl
  | set key value expireMs hk hw hd hv => exact ⟨_, by rw [Store.set_run]⟩
  | expire key ms hk hw hd =>
    rw [Store.expire_run hs]
    cases s.live now.instant key <;> exact ⟨_, rfl⟩
  | pttl key hk => exact ⟨_, by rw [Store.pttl_run hs]⟩

/-- The same live entry under the keys that may be touched. -/
def Agree (c : Caps) (t : Instant) (s₁ s₂ : Store) : Prop :=
  ∀ key, c.keys key → s₁.live t key = s₂.live t key

theorem Agree.touch {t : Instant} {s₁ s₂ : Store} (h : Agree c t s₁ s₂) (key : Str) :
    Agree c t (s₁.touch t key) (s₂.touch t key) := by
  intro j hj
  rw [Store.live_touch, Store.live_touch]
  exact h j hj

theorem Agree.put {t : Instant} {s₁ s₂ : Store} (h : Agree c t s₁ s₂) (key : Str)
    (v : Option StoredValue) (d : Option Instant) :
    Agree c t (s₁.put key v d) (s₂.put key v d) := by
  intro j hj
  rw [Store.live_put, Store.live_put]
  by_cases hjk : j = key
  · rw [hjk, Function.update_self, Function.update_self]
  · rw [Function.update_of_ne hjk, Function.update_of_ne hjk]
    exact h j hj

/-- Two stores with the same live entries give the same reply and go on with the
same live entries. -/
theorem respects (h : Within c m) {s₁ s₂ : Store} (h₁ : s₁.Inv c.values)
    (h₂ : s₂.Inv c.values) (ha : Agree c now.instant s₁ s₂) :
    (m.runAt now s₁).1 = (m.runAt now s₂).1 ∧
      Agree c now.instant (m.runAt now s₁).2 (m.runAt now s₂).2 := by
  induction h generalizing s₁ s₂ with
  | pure a => exact ⟨rfl, ha⟩
  | fault e h => exact ⟨rfl, ha⟩
  | @bind α β m f hm hf ihm ihf =>
    have hstep := ihm h₁ h₂ ha
    have e₁ := effect now hm h₁
    have e₂ := effect now hm h₂
    rw [runAt_bind, runAt_bind]
    rcases hr₁ : m.runAt now s₁ with ⟨p₁ | a₁, s₁'⟩ <;>
      rcases hr₂ : m.runAt now s₂ with ⟨p₂ | a₂, s₂'⟩ <;>
      rw [hr₁, hr₂] at hstep
    · obtain rfl : p₁ = p₂ := Except.error.inj hstep.1
      exact ⟨rfl, hstep.2⟩
    · exact absurd hstep.1 (by simp)
    · exact absurd hstep.1 (by simp)
    · rw [hr₁] at e₁
      rw [hr₂] at e₂
      obtain rfl : a₁ = a₂ := Except.ok.inj hstep.1
      exact ihf a₁ e₁.inv e₂.inv hstep.2
  | lookup key hk =>
    rw [Store.lookup_run h₁, Store.lookup_run h₂, ha key hk]
    exact ⟨rfl, ha.touch key⟩
  | upsert key init f hk hw hinit hf =>
    rw [Store.upsert_run h₁, Store.upsert_run h₂, ha key hk]
    exact ⟨rfl, ha.put key _ _⟩
  | amend key absent f hk hw hf =>
    rw [Store.amend_run h₁, Store.amend_run h₂, ha key hk]
    cases s₂.live now.instant key with
    | none => exact ⟨rfl, ha.put key _ _⟩
    | some e => cases hr : (f e.value).2.2 <;> simp only [hr] <;> exact ⟨rfl, ha.put key _ _⟩
  | set key value expireMs hk hw hd hv =>
    rw [Store.set_run, Store.set_run]
    exact ⟨rfl, ha.put key _ _⟩
  | expire key ms hk hw hd =>
    rw [Store.expire_run h₁, Store.expire_run h₂, ha key hk]
    cases s₂.live now.instant key with
    | none => exact ⟨rfl, ha.put key _ _⟩
    | some e => exact ⟨rfl, ha.put key _ _⟩
  | pttl key hk =>
    rw [Store.pttl_run h₁, Store.pttl_run h₂, ha key hk]
    exact ⟨rfl, ha.touch key⟩

theorem live_eq (h : Within c m) {s₁ s₂ : Store} (h₁ : s₁.Inv c.values)
    (h₂ : s₂.Inv c.values) (hl : s₁.live now.instant = s₂.live now.instant) :
    (m.runAt now s₁).1 = (m.runAt now s₂).1 ∧
      (m.runAt now s₁).2.live now.instant = (m.runAt now s₂).2.live now.instant := by
  have hr := respects now h h₁ h₂ fun key _ => congrFun hl key
  refine ⟨hr.1, funext fun key => ?_⟩
  by_cases hk : c.keys key
  · exact hr.2 key hk
  · rw [(effect now h h₁).frame key hk, (effect now h h₂).frame key hk, hl]

end Within

end FireRedis
