import FireRedis.Base.Pool
import FireRedis.Store.Live

/-!
# Programs during which the clock goes on

`Instant::now` is called by each store call anew. A program that runs alone
takes the readings of `clock` one after the other; a method that checks its key
once takes at most one of them and works at that reading. With the readings all
the same this is `runAt`.
-/

namespace FireRedis
open Std

/-- How many readings of a clock the call takes. -/
def Call.readings : Call → ℕ
  | .instantNow => 1
  | .unixNow => 1
  | .data _ => 0
  | .expirations _ => 0

/-- Answers a call when so many readings have been taken. -/
def Call.tick (clock : ℕ → Reading) (c : Call) (s : Store × ℕ) : c.Answer × Store × ℕ :=
  let r := c.run (clock s.2) s.1
  (r.1, r.2, s.2 + c.readings)

/-- Runs a program alone; also counts the readings taken. -/
def StoreM.runOver {α : Type} (m : StoreM α) (clock : ℕ → Reading) (s : Store) (n : ℕ) :
    Except Panic α × Store × ℕ := m.exec (Call.tick clock) (s, n)

section RunOver

variable {α β : Type} (clock : ℕ → Reading) (s : Store) (n : ℕ)

@[simp] theorem runOver_pure (a : α) :
    (pure a : StoreM α).runOver clock s n = (.ok a, s, n) := rfl

theorem runOver_bind_ok {m : StoreM α} {f : α → StoreM β} {s s' : Store} {n n' : ℕ} {a : α}
    (h : m.runOver clock s n = (.ok a, s', n')) :
    (m >>= f).runOver clock s n = (f a).runOver clock s' n' :=
  Program.exec_bind_ok _ h

theorem runOver_bind (m : StoreM α) (f : α → StoreM β) :
    (m >>= f).runOver clock s n =
      match m.runOver clock s n with
      | (.ok a, s', n') => (f a).runOver clock s' n'
      | (.error e, s', n') => (.error e, s', n') := by
  unfold StoreM.runOver
  rw [Program.exec_bind]
  rcases m.exec (Call.tick clock) (s, n) with ⟨_ | _, _, _⟩ <;> rfl

/-- With all readings the same, the program runs at that instant. -/
theorem runOver_const (now : Reading) (m : StoreM α) :
    ((m.runOver (fun _ => now) s n).1, (m.runOver (fun _ => now) s n).2.1) = m.runAt now s := by
  unfold StoreM.runOver StoreM.runAt
  induction m generalizing s n with
  | done a => rfl
  | fault e => rfl
  | call c k ih => exact ih _ _ _

/-- Calls on the two maps take no reading. -/
theorem runOver_still {m : StoreM α} (h : m.Calls fun c => c.readings = 0) (now : Reading) :
    m.runOver clock s n = ((m.runAt now s).1, (m.runAt now s).2, n) := by
  unfold StoreM.runOver StoreM.runAt
  induction m generalizing s with
  | done a => rfl
  | fault e => rfl
  | call c k ih =>
    obtain ⟨hc, hk⟩ := h
    have hsame : c.run (clock n) s = c.run now s := by
      cases c with
      | instantNow => cases hc
      | unixNow => cases hc
      | data c => rfl
      | expirations c => rfl
    have hrest := ih (c.run now s).1 (c.run now s).2 (hk _)
    rw [Program.exec, Program.exec, ← hrest, Call.tick, hc, hsame]
    rfl

end RunOver

namespace Store

/-! ### Methods that check their key once -/

/-- A check reads the clock only where there is a deadline. -/
def asked (s : Store) (key : Str) : ℕ := if s.expirations[key]?.isSome then 1 else 0

/-- The program works at one reading, the next one. -/
def AtOnce {α : Type} (key : Str) (m : StoreM α) : Prop :=
  ∀ (clock : ℕ → Reading) (s : Store) (n : ℕ), m.runOver clock s n =
    ((m.runAt (clock n) s).1, (m.runAt (clock n) s).2, n + s.asked key)

theorem checkExpiration_atOnce (key : Str) : AtOnce key (checkExpiration key) := by
  intro clock s n
  have hget : (expirationsGet key).runOver clock s n = (.ok s.expirations[key]?, s, n) := rfl
  have hrun : (expirationsGet key).runAt (clock n) s = (.ok s.expirations[key]?, s) := rfl
  rw [checkExpiration, runOver_bind_ok clock hget, runAt_bind_ok _ hrun, asked]
  cases s.expirations[key]? with
  | none => rfl
  | some d =>
    have hnow : instantNow.runOver clock s n = (.ok (clock n).instant, s, n + 1) := rfl
    dsimp only
    rw [runOver_bind_ok clock hnow, runAt_bind_ok _ (runAt_instantNow (clock n) s)]
    by_cases hd : (clock n).instant ≥ d
    · rw [if_pos hd]
      rfl
    · rw [if_neg hd]
      rfl

theorem atOnce_bind {α β : Type} {key : Str} {m : StoreM α} {f : α → StoreM β}
    (hm : AtOnce key m) (hf : ∀ a, (f a).Calls fun c => c.readings = 0) :
    AtOnce key (m >>= f) := by
  intro clock s n
  rw [runOver_bind, runAt_bind, hm clock s n]
  rcases m.runAt (clock n) s with ⟨e | a, s'⟩
  · rfl
  · exact runOver_still clock s' _ (hf a) (clock n)

theorem lookup_atOnce (key : Str) : AtOnce key (lookup key) := by
  apply atOnce_bind (checkExpiration_atOnce key)
  intro expired
  cases expired with
  | true => exact Program.calls_pure _
  | false => exact Program.calls_ask rfl

theorem upsert_atOnce {α : Type} (key : Str) (init : StoredValue)
    (f : StoredValue → α × StoredValue) : AtOnce key (upsert key init f) := by
  apply atOnce_bind (checkExpiration_atOnce key)
  intro expired
  exact Program.Calls.bind (Program.calls_ask rfl) fun old => Program.calls_pure _

/-! ### Loops of insertions -/

section Upsert

variable {α : Type} (clock : ℕ → Reading) (s : Store) (n : ℕ) (key : Str) (v init : StoredValue)
  (f : StoredValue → α × StoredValue)

theorem upsert_put (w : Option StoredValue) (d : Option Instant) :
    (upsert key init f).runOver clock (s.put key w d) n =
      let old := ((liveOf (clock n).instant w d).map Entry.value).getD init
      (.ok (f old).1, s.put key (some (f old).2) (d.filter fun d => (clock n).instant < d),
        n + if d.isSome then 1 else 0) := by
  rw [upsert_atOnce key init f clock, upsert_spec, live_put_self, pending, asked, put_expirations,
    if_pos rfl, put_put]

theorem upsert_absent : (upsert key init f).runOver clock (s.put key none none) n =
    (.ok (f init).1, s.put key (some (f init).2) none, n) := upsert_put clock s n key init f ..

theorem upsert_lasting : (upsert key init f).runOver clock (s.put key (some v) none) n =
    (.ok (f v).1, s.put key (some (f v).2) none, n) := upsert_put clock s n key init f ..

theorem upsert_early {d : Instant} (h : (clock n).instant < d) :
    (upsert key init f).runOver clock (s.put key (some v) (some d)) n =
      (.ok (f v).1, s.put key (some (f v).2) (some d), n + 1) := by
  rw [upsert_put, liveOf, if_neg (Nat.not_le.mpr h), Option.filter_some, if_pos (by simpa using h)]
  rfl

/-- The first insertion after the deadline starts anew. -/
theorem upsert_late {d : Instant} (h : d ≤ (clock n).instant) :
    (upsert key init f).runOver clock (s.put key (some v) (some d)) n =
      (.ok (f init).1, s.put key (some (f init).2) none, n + 1) := by
  rw [upsert_put, liveOf, if_pos h, Option.filter_some, if_neg (by simpa using h)]
  rfl

end Upsert

/-- Inserts the items one by one; `g` takes up each result. -/
def upserts {α β γ : Type} (key : Str) (init : StoredValue) (f : α → StoredValue → γ × StoredValue)
    (g : β → γ → β) (items : List α) (b : β) : StoreM β :=
  items.foldlM (fun b a => do
    let c ← upsert key init (f a)
    return g b c) b

/-- What the insertions make of a value, and of what they take up. -/
def inserted {α β γ : Type} (f : α → StoredValue → γ × StoredValue) (g : β → γ → β)
    (items : List α) (r : β × StoredValue) : β × StoredValue :=
  items.foldl (fun r a => (g r.1 (f a r.2).1, (f a r.2).2)) r

section Upserts

variable {α β γ : Type} (clock : ℕ → Reading) (s : Store) (key : Str) (init : StoredValue)
  (f : α → StoredValue → γ × StoredValue) (g : β → γ → β)

theorem upserts_cons {s' : Store} {n n' : ℕ} {c : γ} {a : α}
    (h : (upsert key init (f a)).runOver clock s n = (.ok c, s', n')) (items : List α) (b : β) :
    (upserts key init f g (a :: items) b).runOver clock s n =
      (upserts key init f g items (g b c)).runOver clock s' n' := by
  rw [upserts, List.foldlM_cons]
  simp only [bind_assoc, pure_bind]
  exact runOver_bind_ok clock h

theorem upserts_append {s' : Store} {n n' : ℕ} {b b' : β} {items : List α}
    (h : (upserts key init f g items b).runOver clock s n = (.ok b', s', n')) (rest : List α) :
    (upserts key init f g (items ++ rest) b).runOver clock s n =
      (upserts key init f g rest b').runOver clock s' n' := by
  unfold upserts at h ⊢
  rw [List.foldlM_append]
  exact runOver_bind_ok clock h

theorem upserts_lasting (items : List α) (n : ℕ) (b : β) (v : StoredValue) :
    (upserts key init f g items b).runOver clock (s.put key (some v) none) n =
      (.ok (inserted f g items (b, v)).1, s.put key (some (inserted f g items (b, v)).2) none,
        n) := by
  induction items generalizing b v with
  | nil => rfl
  | cons a items ih =>
    rw [upserts_cons clock _ key init f g (upsert_lasting clock s n key v init (f a)), ih]
    rfl

theorem upserts_absent {items : List α} (hne : items ≠ []) (n : ℕ) (b : β) :
    (upserts key init f g items b).runOver clock (s.put key none none) n =
      (.ok (inserted f g items (b, init)).1,
        s.put key (some (inserted f g items (b, init)).2) none, n) := by
  cases items with
  | nil => exact absurd rfl hne
  | cons a items =>
    rw [upserts_cons clock _ key init f g (upsert_absent clock s n key init (f a)),
      upserts_lasting]
    rfl

theorem upserts_early {d : Instant} (items : List α) (n : ℕ) (b : β) (v : StoredValue)
    (h : ∀ i < items.length, (clock (n + i)).instant < d) :
    (upserts key init f g items b).runOver clock (s.put key (some v) (some d)) n =
      (.ok (inserted f g items (b, v)).1, s.put key (some (inserted f g items (b, v)).2) (some d),
        n + items.length) := by
  induction items generalizing n b v with
  | nil => rfl
  | cons a items ih =>
    have hrest : ∀ i < items.length, (clock (n + 1 + i)).instant < d := by
      intro i hi
      rw [Nat.add_assoc, Nat.add_comm 1 i]
      exact h (i + 1) (Nat.succ_lt_succ hi)
    rw [upserts_cons clock _ key init f g
      (upsert_early clock s n key v init (f a) (h 0 (Nat.zero_lt_succ _))), ih _ _ _ hrest,
      List.length_cons, Nat.add_assoc, Nat.add_comm 1]
    rfl

theorem upserts_late {d : Instant} {items : List α} (hne : items ≠ []) (n : ℕ) (b : β)
    (v : StoredValue) (h : d ≤ (clock n).instant) :
    (upserts key init f g items b).runOver clock (s.put key (some v) (some d)) n =
      (.ok (inserted f g items (b, init)).1,
        s.put key (some (inserted f g items (b, init)).2) none, n + 1) := by
  cases items with
  | nil => exact absurd rfl hne
  | cons a items =>
    rw [upserts_cons clock _ key init f g (upsert_late clock s n key v init (f a) h),
      upserts_lasting]
    rfl

/-- A deadline between two insertions: the ones before it are gone with the value. -/
theorem upserts_split {d : Instant} (early late : List α) (hne : late ≠ []) (n : ℕ) (b : β)
    (v : StoredValue) (hearly : ∀ i < early.length, (clock (n + i)).instant < d)
    (hlate : d ≤ (clock (n + early.length)).instant) :
    (upserts key init f g (early ++ late) b).runOver clock (s.put key (some v) (some d)) n =
      let r := inserted f g late ((inserted f g early (b, v)).1, init)
      (.ok r.1, s.put key (some r.2) none, n + early.length + 1) := by
  rw [upserts_append clock _ key init f g (upserts_early clock s key init f g early n b v hearly)]
  exact upserts_late clock s key init f g hne _ _ _ hlate

end Upserts

end Store

end FireRedis
