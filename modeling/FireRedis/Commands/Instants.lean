import FireRedis.Commands.Writes
import FireRedis.Store.Equivalence
import FireRedis.Store.Ticking

/-!
# Writes of several elements and the clock (commands/data.rs)

RPUSH, HSET and ZADD call the store once for each element, and each call checks
the key anew. Where the deadline of the key passes between two elements, the
elements before it go with the old collection and the others start a new one.
-/

namespace FireRedis
open Std Counted Store

/-- The reply, and what is live at the last reading taken, are those of running
the whole program at one of the readings. -/
def AtOneInstant (m : StoreM Value) (clock : ℕ → Reading) (s : Store) : Prop :=
  let r := m.runOver clock s 0
  let last := (clock (r.2.2 - 1)).instant
  ∃ k < r.2.2, r.1 = (m.runAt (clock k) s).1 ∧
    Dataset.Related (fun d d' => d = d') (r.2.1.live last) ((m.runAt (clock k) s).2.live last)

/-- The deadline passes between the two parts of the elements. The type check
takes reading 0, each element the next one. -/
def Split {α : Type} (clock : ℕ → Reading) (d : Instant) (early late : List α) : Prop :=
  early ≠ [] ∧ late ≠ [] ∧ (clock early.length).instant < d ∧
    d ≤ (clock (early.length + 1)).instant

theorem exists_split {α : Type} (clock : ℕ → Reading) (d : Instant) (items : List α) (n : ℕ) :
    ∃ early late, items = early ++ late ∧ (∀ i < early.length, (clock (n + i)).instant < d) ∧
      (late ≠ [] → d ≤ (clock (n + early.length)).instant) := by
  induction items generalizing n with
  | nil => exact ⟨[], [], rfl, nofun, fun h => absurd rfl h⟩
  | cons a items ih =>
    by_cases hn : (clock n).instant < d
    · obtain ⟨early, late, rfl, hearly, hlate⟩ := ih (n + 1)
      refine ⟨a :: early, late, rfl, fun i hi => ?_, fun h => ?_⟩
      · cases i with
        | zero => exact hn
        | succ i =>
          rw [← Nat.add_assoc, Nat.add_right_comm]
          exact hearly i (Nat.lt_of_succ_lt_succ hi)
      · rw [List.length_cons, ← Nat.add_assoc, Nat.add_right_comm]
        exact hlate h
    · exact ⟨[], a :: items, rfl, nofun, fun _ => Nat.not_lt.mp hn⟩

/-! ### The type check -/

theorem ensureType_atOnce (key expected : Str) : AtOnce key (ensureType key expected) := by
  have htype : AtOnce key (Store.typeOf key) :=
    atOnce_bind (lookup_atOnce key) fun _ => Program.calls_pure _
  apply atOnce_bind htype
  intro actual
  cases actual with
  | none => exact Program.calls_pure _
  | some actual => exact Program.calls_pure _

section TypeCheck

variable (clock : ℕ → Reading) (s : Store) (n : ℕ) (key : Str) {d : Instant} {v : StoredValue}
  {name : String} (body : StoreM Value)

theorem ensureType_put (expected : Str) :
    (ensureType key expected).runOver clock (s.put key (some v) (some d)) n =
      (.ok ((liveOf (clock n).instant (some v) (some d)).bind fun e =>
        if Store.typeName e.value ≠ expected then some wrongType else none),
        s.put key ((liveOf (clock n).instant (some v) (some d)).map Entry.value)
          ((some d).filter fun d => (clock n).instant < d), n + 1) := by
  rw [ensureType_atOnce key expected clock, ensureType_spec, check, live_put_self, pending, asked,
    put_expirations, if_pos rfl, put_put]
  rfl

theorem withType_early (hv : Store.typeName v = Str.lit name) (h : (clock n).instant < d) :
    (withType key name body).runOver clock (s.put key (some v) (some d)) n =
      body.runOver clock (s.put key (some v) (some d)) (n + 1) := by
  rw [withType, runOver_bind_ok clock (ensureType_put clock s n key _), liveOf,
    if_neg (Nat.not_le.mpr h), Option.filter_some, if_pos (by simpa using h), Option.bind_some,
    if_neg (not_not.mpr hv)]
  rfl

theorem withType_late (h : d ≤ (clock n).instant) :
    (withType key name body).runOver clock (s.put key (some v) (some d)) n =
      body.runOver clock (s.put key none none) (n + 1) := by
  rw [withType, runOver_bind_ok clock (ensureType_put clock s n key _), liveOf, if_pos h,
    Option.filter_some, if_neg (by simpa using h)]
  rfl

theorem withType_other (hv : Store.typeName v ≠ Str.lit name) (h : (clock n).instant < d) :
    (withType key name body).runOver clock (s.put key (some v) (some d)) n =
      (.ok wrongType, s.put key (some v) (some d), n + 1) := by
  rw [withType, runOver_bind_ok clock (ensureType_put clock s n key _), liveOf,
    if_neg (Nat.not_le.mpr h), Option.filter_some, if_pos (by simpa using h), Option.bind_some,
    if_pos hv]
  rfl

end TypeCheck

theorem runAt_of_runOver {α : Type} {m : StoreM α} {now : Reading} {s s' : Store} {n n' : ℕ}
    {r : Except Panic α} (h : m.runOver (fun _ => now) s n = (r, s', n')) :
    m.runAt now s = (r, s') := by
  rw [← runOver_const s n now m, h]

/-! ### A handler that inserts its elements one by one -/

section Elements

variable {α β γ : Type} (key : Str) (name : String) (init : StoredValue)
  (f : α → StoredValue → γ × StoredValue) (g : β → γ → β) (b₀ : β) (reply : β → Value)

def elementwise (items : List α) : StoreM Value :=
  withType key name do return reply (← upserts key init f g items b₀)

variable (clock : ℕ → Reading) (s : Store) {d : Instant} {v : StoredValue}

theorem elementwise_early (hv : Store.typeName v = Str.lit name) {items : List α}
    (hcheck : (clock 0).instant < d) (h : ∀ i < items.length, (clock (1 + i)).instant < d) :
    (elementwise key name init f g b₀ reply items).runOver clock
        (s.put key (some v) (some d)) 0 =
      let r := inserted f g items (b₀, v)
      (.ok (reply r.1), s.put key (some r.2) (some d), 1 + items.length) := by
  have hloop := upserts_early clock s key init f g items 1 b₀ v h
  rw [elementwise, withType_early clock s 0 key _ hv hcheck, runOver_bind_ok clock hloop]
  rfl

theorem elementwise_late {items : List α} (hne : items ≠ []) (hcheck : d ≤ (clock 0).instant) :
    (elementwise key name init f g b₀ reply items).runOver clock
        (s.put key (some v) (some d)) 0 =
      let r := inserted f g items (b₀, init)
      (.ok (reply r.1), s.put key (some r.2) none, 1) := by
  have hloop := upserts_absent clock s key init f g hne 1 b₀
  rw [elementwise, withType_late clock s 0 key _ hcheck, runOver_bind_ok clock hloop]
  rfl

theorem elementwise_none (hcheck : d ≤ (clock 0).instant) :
    (elementwise key name init f g b₀ reply []).runOver clock (s.put key (some v) (some d)) 0 =
      (.ok (reply b₀), s.put key none none, 1) := by
  rw [elementwise, withType_late clock s 0 key _ hcheck]
  rfl

theorem elementwise_split (hv : Store.typeName v = Str.lit name) {early late : List α}
    (hne : late ≠ []) (hcheck : (clock 0).instant < d)
    (hearly : ∀ i < early.length, (clock (1 + i)).instant < d)
    (hlate : d ≤ (clock (1 + early.length)).instant) :
    (elementwise key name init f g b₀ reply (early ++ late)).runOver clock
        (s.put key (some v) (some d)) 0 =
      let r := inserted f g late ((inserted f g early (b₀, v)).1, init)
      (.ok (reply r.1), s.put key (some r.2) none, 1 + early.length + 1) := by
  have hloop := upserts_split clock s key init f g early late hne 1 b₀ v hearly hlate
  rw [elementwise, withType_early clock s 0 key _ hv hcheck, runOver_bind_ok clock hloop]
  rfl

/-! ### The whole handler at one instant -/

variable (now : Reading)

theorem elementwise_at_early (hv : Store.typeName v = Str.lit name) (items : List α)
    (h : now.instant < d) :
    (elementwise key name init f g b₀ reply items).runAt now (s.put key (some v) (some d)) =
      let r := inserted f g items (b₀, v)
      (.ok (reply r.1), s.put key (some r.2) (some d)) :=
  runAt_of_runOver (elementwise_early key name init f g b₀ reply (fun _ => now) s hv h fun _ _ => h)

theorem elementwise_at_late {items : List α} (hne : items ≠ []) (h : d ≤ now.instant) :
    (elementwise key name init f g b₀ reply items).runAt now (s.put key (some v) (some d)) =
      let r := inserted f g items (b₀, init)
      (.ok (reply r.1), s.put key (some r.2) none) :=
  runAt_of_runOver (elementwise_late key name init f g b₀ reply (fun _ => now) s hne h)

end Elements

/-- The reading that a run is like, and what is left to compare. -/
theorem atOneInstant_of_run {m : StoreM Value} {clock : ℕ → Reading} {s s' s'' : Store} {n k : ℕ}
    {r : Except Panic Value} (hrun : m.runOver clock s 0 = (r, s', n)) (hk : k < n)
    (hwhole : m.runAt (clock k) s = (r, s''))
    (hlive : Dataset.Related (fun d d' => d = d') (s'.live (clock (n - 1)).instant)
      (s''.live (clock (n - 1)).instant)) : AtOneInstant m clock s := by
  rw [AtOneInstant, hrun]
  refine ⟨k, hk, ?_⟩
  rw [hwhole]
  exact ⟨rfl, hlive⟩

theorem related_put (s : Store) (key : Str) (v w : StoredValue) (t : Instant) :
    Dataset.Related (fun d d' => d = d') ((s.put key (some v) none).live t)
      ((s.put key (some w) none).live t) ↔ v.Same w := by
  constructor
  · intro h
    have hkey := h key
    rw [live_put_self, live_put_self] at hkey
    cases hkey with
    | some he => exact he.value
  · intro h j
    rw [live_put, live_put]
    by_cases hj : j = key
    · subst hj
      rw [Function.update_self, Function.update_self]
      exact .some ⟨h, .none⟩
    · rw [Function.update_of_ne hj, Function.update_of_ne hj]
      exact Dataset.Related.refl (s.live t) j

section Elements

variable {α β γ : Type} (key : Str) (name : String) (init : StoredValue)
  (f : α → StoredValue → γ × StoredValue) (g : β → γ → β) (b₀ : β) (reply : β → Value)
  (clock : ℕ → Reading) (s : Store) {d : Instant} {v : StoredValue}

/-- The key has expired before the type check. -/
theorem elementwise_expired (items : List α) (hcheck : d ≤ (clock 0).instant) :
    AtOneInstant (elementwise key name init f g b₀ reply items) clock
      (s.put key (some v) (some d)) := by
  cases items with
  | nil =>
    exact atOneInstant_of_run (elementwise_none key name init f g b₀ reply clock s hcheck)
      Nat.one_pos (runAt_of_runOver
        (elementwise_none key name init f g b₀ reply (fun _ => clock 0) s hcheck)) (.refl _)
  | cons a items =>
    have hne := List.cons_ne_nil a items
    exact atOneInstant_of_run (elementwise_late key name init f g b₀ reply clock s hne hcheck)
      Nat.one_pos (elementwise_at_late key name init f g b₀ reply s (clock 0) hne hcheck) (.refl _)

theorem elementwise_other (hv : Store.typeName v ≠ Str.lit name) (items : List α) :
    AtOneInstant (elementwise key name init f g b₀ reply items) clock
      (s.put key (some v) (some d)) := by
  by_cases hcheck : (clock 0).instant < d
  · have hrun : ∀ clock : ℕ → Reading, (clock 0).instant < d →
        (elementwise key name init f g b₀ reply items).runOver clock
          (s.put key (some v) (some d)) 0 = (.ok wrongType, s.put key (some v) (some d), 1) :=
      fun clock h => withType_other clock s 0 key _ hv h
    exact atOneInstant_of_run (hrun clock hcheck) Nat.one_pos
      (runAt_of_runOver (hrun (fun _ => clock 0) hcheck)) (.refl _)
  · exact elementwise_expired key name init f g b₀ reply clock s items (Nat.not_lt.mp hcheck)

/-- The run that a deadline splits, and the whole run at a reading after it, end alike. -/
def SplitAgrees (v : StoredValue) (early late : List α) : Prop :=
  let r := inserted f g late ((inserted f g early (b₀, v)).1, init)
  let w := inserted f g (early ++ late) (b₀, init)
  reply r.1 = reply w.1 ∧ r.2.Same w.2

variable (hv : Store.typeName v = Str.lit name)
  (hmono : Monotone fun i => (clock i).instant)
include hv hmono

theorem elementwise_split_iff {early late : List α} (hsplit : Split clock d early late) :
    AtOneInstant (elementwise key name init f g b₀ reply (early ++ late)) clock
      (s.put key (some v) (some d)) ↔ SplitAgrees init f g b₀ reply v early late := by
  obtain ⟨-, hne, hlast, hlate⟩ := hsplit
  have hbefore : ∀ i ≤ early.length, (clock i).instant < d :=
    fun i hi => Nat.lt_of_le_of_lt (hmono hi) hlast
  rw [Nat.add_comm] at hlate
  have hrun := elementwise_split key name init f g b₀ reply clock s hv hne
    (hbefore 0 (Nat.zero_le _)) (fun i hi => hbefore (1 + i) (by omega)) hlate
  have hwhole : ∀ k, d ≤ (clock k).instant → _ := fun k hk =>
    elementwise_at_late key name init f g b₀ reply s (v := v) (clock k)
      (List.append_ne_nil_of_right_ne_nil early hne) hk
  constructor
  · intro h
    rw [AtOneInstant, hrun] at h
    obtain ⟨k, -, hreply, hlive⟩ := h
    dsimp only at hreply hlive
    rw [Nat.add_sub_cancel] at hlive
    by_cases hk : (clock k).instant < d
    · -- At a reading before the deadline the whole command leaves a key that is gone at the end.
      rw [elementwise_at_early key name init f g b₀ reply s (clock k) hv _ hk] at hlive
      have hkey := hlive key
      dsimp only at hkey
      rw [live_put_self, live_put_self, liveOf, liveOf, if_pos hlate] at hkey
      cases hkey
    · rw [hwhole k (Nat.not_lt.mp hk)] at hreply hlive
      refine ⟨?_, (related_put s key _ _ _).mp hlive⟩
      exact Except.ok.inj hreply
  · rintro ⟨hreply, hsame⟩
    refine atOneInstant_of_run hrun (Nat.lt_succ_self _) ?_ ((related_put s key _ _ _).mpr hsame)
    rw [hwhole _ hlate]
    dsimp only
    rw [← hreply]

theorem elementwise_iff (items : List α) :
    AtOneInstant (elementwise key name init f g b₀ reply items) clock
      (s.put key (some v) (some d)) ↔ ∀ early late, items = early ++ late →
        Split clock d early late → SplitAgrees init f g b₀ reply v early late := by
  constructor
  · rintro h early late rfl hsplit
    exact (elementwise_split_iff key name init f g b₀ reply clock s hv hmono hsplit).mp h
  · intro h
    by_cases hcheck : (clock 0).instant < d
    · obtain ⟨early, late, rfl, hearly, hlate⟩ := exists_split clock d items 1
      by_cases hne : late = []
      · -- No element comes after the deadline.
        rw [hne, List.append_nil]
        exact atOneInstant_of_run
          (elementwise_early key name init f g b₀ reply clock s hv hcheck hearly) (by omega)
          (elementwise_at_early key name init f g b₀ reply s (clock 0) hv early hcheck) (.refl _)
      · cases early with
        | nil =>
          -- Only the type check comes before it.
          have hbefore : ∀ i < ([] : List α).length, (clock (1 + i)).instant < d := nofun
          have hrun := elementwise_split key name init f g b₀ reply clock s hv hne hcheck hbefore
            (hlate hne)
          exact atOneInstant_of_run hrun (Nat.lt_succ_self 1)
            (elementwise_at_late key name init f g b₀ reply s (clock 1) hne (hlate hne)) (.refl _)
        | cons a early =>
          have hlast := hearly early.length (Nat.lt_succ_self _)
          have hdeadline := hlate hne
          rw [Nat.add_comm] at hlast hdeadline
          have hsplit : Split clock d (a :: early) late :=
            ⟨List.cons_ne_nil a early, hne, hlast, hdeadline⟩
          exact (elementwise_split_iff key name init f g b₀ reply clock s hv hmono hsplit).mpr
            (h _ _ rfl hsplit)
    · exact elementwise_expired key name init f g b₀ reply clock s items (Nat.not_lt.mp hcheck)

end Elements

/-! ### What the split loses -/

theorem pushed_snd (vals : List Bytes) (b : ℕ) (items : List Bytes) :
    (inserted pushBack (fun _ len => len) vals (b, .list items)).2 = .list (items ++ vals) := by
  induction vals generalizing b items with
  | nil => rw [List.append_nil]; rfl
  | cons val vals ih =>
    have hstep := ih (pushBack val (.list items)).1 (items ++ [val])
    rw [List.append_assoc] at hstep
    exact hstep

/-- The first elements of the list are lost. -/
theorem push_disagrees {early late items : List Bytes} (hne : early ≠ []) :
    ¬ SplitAgrees (.list []) pushBack (fun _ len => len) 0 count (.list items) early late := by
  rintro ⟨-, hsame⟩
  rw [pushed_snd, pushed_snd] at hsame
  have hlen := congrArg List.length (StoredValue.list.inj hsame)
  rw [List.nil_append, List.nil_append, List.length_append] at hlen
  have hpos := List.length_pos_iff.mpr hne
  omega

theorem ofNat_eq_zero {n : ℕ} (hn : n ≤ isizeMax) : Int64.ofNat n = 0 ↔ n = 0 := by
  constructor
  · intro h
    have hint := congrArg Int64.toInt h
    rw [Int64.toInt_ofNat_of_lt (by unfold isizeMax at hn; omega)] at hint
    exact Int.ofNat_eq_zero.mp hint
  · rintro rfl
    rfl

section Counting

variable {σ α κ : Type} [DecidableEq κ] (K : Kind σ) (name : α → κ) (contains : σ → κ → Bool)
  (step : σ → α → σ) (f : α → StoredValue → Bool × StoredValue)

/-- Insertions of named elements, overwriting those of the same name. -/
structure Overwrites : Prop where
  insert : ∀ a x, f a (K.wrap x) = (!contains x (name a), K.wrap (step x a))
  names : ∀ x a k, contains (step x a) k = (decide (k = name a) || contains x k)
  fresh : ∀ k, contains K.fresh k = false
  same : ∀ early late : List α, (K.wrap (late.foldl step K.fresh)).Same
    (K.wrap ((early ++ late).foldl step K.fresh)) ↔ ∀ a ∈ early, name a ∈ late.map name

variable {K name contains step f} (h : Overwrites K name contains step f)
include h

theorem Overwrites.inserted_eq (items : List α) (n : Int64) (x : σ) :
    inserted f (fun (n : Int64) c => if c then n + 1 else n) items (n, K.wrap x) =
      (n + Int64.ofNat ((items.map name).toFinset.filter fun k => contains x k = false).card,
        K.wrap (items.foldl step x)) := by
  have hclose : ∀ x a k, (!contains (step x a) k) = (decide (k ≠ name a) && !contains x k) := by
    intro x a k
    rw [h.names, Bool.not_or, ← decide_not]
  have hcard : (counted (fun x a => !contains x (name a)) step items x).1 = _ :=
    counted_open name (fun x k => !contains x k) (fun _ _ => rfl) hclose items x
  have hloop := foldl_wrap (fun x a => !contains x (name a)) step K.wrap f h.insert
    (fun n : Int64 => n + 1) items n x
  have hadd : ∀ m, (fun n : Int64 => n + 1)^[m] n = n + Int64.ofNat m := by
    intro m
    induction m with
    | zero => exact (Int64.add_zero n).symm
    | succ m ih =>
      rw [Function.iterate_succ_apply', ih, Int64.add_assoc]
      exact congrArg (n + ·) (Int64.ofNat_add m 1).symm
  simp only [Bool.not_eq_true'] at hcard
  rw [hadd, hcard, counted_snd] at hloop
  exact hloop

/-- Only where every early element was there and comes again late. -/
theorem Overwrites.agrees_iff {early late : List α} (hlen : early.length ≤ isizeMax) (x : σ) :
    SplitAgrees (K.wrap K.fresh) f (fun (n : Int64) c => if c then n + 1 else n) 0 Value.integer
      (K.wrap x) early late ↔
      ∀ a ∈ early, contains x (name a) = true ∧ name a ∈ late.map name := by
  have hall : ∀ items : List α, ((items.map name).toFinset.filter fun k =>
      contains K.fresh k = false) = (items.map name).toFinset := by
    intro items
    exact Finset.filter_true_of_mem fun k _ => h.fresh k
  unfold SplitAgrees
  rw [h.inserted_eq early, h.inserted_eq late, h.inserted_eq (early ++ late), hall, hall]
  dsimp only
  rw [h.same, forall₂_and, and_comm, and_comm (b := ∀ a ∈ early, name a ∈ late.map name)]
  refine and_congr_right fun hcover => ?_
  have hnames : ((early ++ late).map name).toFinset = (late.map name).toFinset := by
    rw [List.map_append, List.toFinset_append]
    apply Finset.union_eq_right.mpr
    intro k hk
    obtain ⟨a, ha, rfl⟩ := List.mem_map.mp (List.mem_toFinset.mp hk)
    exact List.mem_toFinset.mpr (hcover a ha)
  have hcount := (((early.map name).toFinset.filter fun k => contains x k = false).card_le_card
    (Finset.filter_subset ..)).trans (List.toFinset_card_le _)
  rw [List.length_map] at hcount
  rw [hnames, Value.integer.injEq, Int64.add_left_inj, Int64.zero_add,
    ofNat_eq_zero (hcount.trans hlen), Finset.card_eq_zero, Finset.filter_eq_empty_iff]
  simp

theorem Overwrites.elementwise_iff (key : Str) (clock : ℕ → Reading) (s : Store) {d : Instant}
    (hmono : Monotone fun i => (clock i).instant) {items : List α}
    (hlen : items.length ≤ isizeMax) (x : σ) :
    AtOneInstant (elementwise key K.name (K.wrap K.fresh) f
      (fun (n : Int64) c => if c then n + 1 else n) 0 Value.integer items) clock
      (s.put key (some (K.wrap x)) (some d)) ↔
      ∀ early late, items = early ++ late → Split clock d early late →
        ∀ a ∈ early, contains x (name a) = true ∧ name a ∈ late.map name := by
  rw [FireRedis.elementwise_iff _ _ _ _ _ _ _ clock s ((K.named _).mpr ⟨x, rfl⟩) hmono]
  refine forall₂_congr fun early late => forall_congr' fun hitems => ?_
  rw [hitems, List.length_append] at hlen
  rw [h.agrees_iff (Nat.le_of_add_right_le hlen) x]

end Counting

theorem hash_overwrites : Overwrites .hash Prod.fst (fun H k => H.contains k)
    (fun H (e : Str × Bytes) => H.insert e.1 e.2) (fun e => setField e.1 e.2) where
  insert _ _ := rfl
  names H e k := H.contains_insert_eq e.1 k e.2
  fresh k := ExtTreeMap.contains_empty
  same early late := by
    constructor
    · intro hsame
      have hmaps : late.foldl (fun H (e : Str × Bytes) => H.insert e.1 e.2)
          (∅ : ExtTreeMap Str Bytes) = (early ++ late).foldl (fun H e => H.insert e.1 e.2) ∅ :=
        StoredValue.hash.inj hsame
      have hmem : ∀ f, f ∈ (early ++ late).foldl (fun H e => H.insert e.1 e.2)
          (∅ : ExtTreeMap Str Bytes) → f ∈ late.foldl (fun H e => H.insert e.1 e.2)
          (∅ : ExtTreeMap Str Bytes) := by
        rw [hmaps]
        exact fun _ => id
      exact ExtTreeMap.overwritten_of_mem Prod.fst Prod.snd hmem
    · intro h
      have hmaps := ExtTreeMap.insertAll_overwritten Prod.fst Prod.snd h
        (∅ : ExtTreeMap Str Bytes)
      exact congrArg StoredValue.hash hmaps.symm

theorem foldl_zInsert_scores (entries : List (F64 × Bytes)) (z : SortedSet) :
    (entries.foldl (fun z e => zInsert e.1 e.2 z) z).scores =
      entries.foldl (fun M e => M.insert e.2 e.1) z.scores := by
  induction entries generalizing z with
  | nil => rfl
  | cons e entries ih => exact ih (zInsert e.1 e.2 z)

theorem foldl_zInsert_consistent (entries : List (F64 × Bytes)) {z : SortedSet}
    (hz : z.Consistent) : (entries.foldl (fun z e => zInsert e.1 e.2 z) z).Consistent := by
  induction entries generalizing z with
  | nil => exact hz
  | cons e entries ih => exact ih (consistent_zInsert hz e.1 e.2)

theorem zset_overwrites : Overwrites .zset Prod.snd (fun z m => z.scores.contains m)
    (fun z (e : F64 × Bytes) => zInsert e.1 e.2 z) (fun e => addToSortedSet e.1 e.2) where
  insert _ _ := rfl
  names z e m := z.scores.contains_insert_eq e.2 m e.1
  fresh m := ExtTreeMap.contains_empty
  same early late := by
    have hscores : ∀ entries : List (F64 × Bytes),
        (entries.foldl (fun z e => zInsert e.1 e.2 z) Kind.zset.fresh).scores =
          entries.foldl (fun M e => M.insert e.2 e.1) ∅ := fun entries =>
      foldl_zInsert_scores entries Kind.zset.fresh
    constructor
    · intro hsame
      have hmem : ∀ m, m ∈ (early ++ late).foldl (fun M e => M.insert e.2 e.1)
          (∅ : ExtTreeMap Bytes F64) → m ∈ late.foldl (fun M e => M.insert e.2 e.1)
          (∅ : ExtTreeMap Bytes F64) := by
        intro m hm
        have hsome := congrArg Option.isSome (SortedSet.Same.scores hsame m)
        rw [Option.isSome_map, Option.isSome_map, ← ExtTreeMap.contains_eq_isSome_getElem?,
          ← ExtTreeMap.contains_eq_isSome_getElem?, hscores, hscores,
          ExtTreeMap.contains_iff_mem.mpr hm] at hsome
        exact ExtTreeMap.contains_iff_mem.mp hsome
      exact ExtTreeMap.overwritten_of_mem Prod.snd Prod.fst hmem
    · intro h
      have hconsistent : ∀ entries : List (F64 × Bytes),
          (entries.foldl (fun z e => zInsert e.1 e.2 z) Kind.zset.fresh).Consistent :=
        fun entries => foldl_zInsert_consistent entries SortedSet.consistent_empty
      refine SortedSet.same_of_scores (hconsistent late) (hconsistent (early ++ late)) fun m => ?_
      rw [hscores, hscores, ExtTreeMap.insertAll_overwritten Prod.snd Prod.fst h]

/-! ### The three commands -/

inductive ElementWrite
  | rPush (vals : List Bytes)
  | hSet (fields : List (Str × Bytes))
  | zAdd (entries : List (F64 × Bytes))

namespace ElementWrite

def run (key : Str) : ElementWrite → StoreM Value
  | rPush vals => handleRPush key vals
  | hSet fields => handleHSet key fields
  | zAdd entries => handleZAdd key entries

def length : ElementWrite → ℕ
  | rPush vals => vals.length
  | hSet fields => fields.length
  | zAdd entries => entries.length

/-- The deadline of the value does not split the elements, or splits off only
fields or members that the value has and that come again behind the deadline. -/
def Unharmed (clock : ℕ → Reading) (d : Instant) : ElementWrite → StoredValue → Prop
  | rPush vals, .list _ =>
    ∀ early late, vals = early ++ late → ¬ Split clock d early late
  | hSet fields, .hash H =>
    ∀ early late, fields = early ++ late → Split clock d early late →
      ∀ e ∈ early, H.contains e.1 = true ∧ e.1 ∈ late.map Prod.fst
  | zAdd entries, .sortedSet z =>
    ∀ early late, entries = early ++ late → Split clock d early late →
      ∀ e ∈ early, z.scores.contains e.2 = true ∧ e.2 ∈ late.map Prod.snd
  | _, _ => True

theorem rPush_elementwise (key : Str) (vals : List Bytes) : (rPush vals).run key =
    elementwise key "list" (.list []) pushBack (fun _ len => len) 0 count vals := by
  unfold run handleRPush elementwise upserts Store.rPush
  simp only [bind_pure]
  cases vals with
  | nil => rfl
  | cons val vals => rfl

theorem hSet_elementwise (key : Str) (fields : List (Str × Bytes)) : (hSet fields).run key =
    elementwise key "hash" (.hash ∅) (fun e => setField e.1 e.2)
      (fun (n : Int64) c => if c then n + 1 else n) 0 Value.integer fields := rfl

theorem zAdd_elementwise (key : Str) (entries : List (F64 × Bytes)) : (zAdd entries).run key =
    elementwise key "zset" (.sortedSet ⟨∅, ∅⟩) (fun e => addToSortedSet e.1 e.2)
      (fun (n : Int64) c => if c then n + 1 else n) 0 Value.integer entries := rfl

/-- A write of several elements acts at one instant unless the deadline of its
key harms it. -/
theorem write_atOneInstant_iff (w : ElementWrite) {s : Store} {key : Str} {v : StoredValue}
    {d : Instant} (hv : s.data[key]? = some v) (hd : s.expirations[key]? = some d)
    {clock : ℕ → Reading}
    (hmono : Monotone fun i => (clock i).instant) (hlen : w.length ≤ isizeMax) :
    AtOneInstant (w.run key) clock s ↔ w.Unharmed clock d v := by
  have hs := s.put_self key
  rw [hv, hd] at hs
  rw [← hs]
  have hother : ∀ {σ : Type} (K : Kind σ), (∀ x, v ≠ K.wrap x) →
      Store.typeName v ≠ Str.lit K.name := by
    intro σ K hne htype
    obtain ⟨x, hx⟩ := (K.named v).mp htype
    exact hne x hx
  cases w with
  | rPush vals =>
    rw [rPush_elementwise]
    cases v with
    | list items =>
      have htype : Store.typeName (.list items) = Str.lit "list" := rfl
      rw [elementwise_iff _ _ _ _ _ _ _ clock s htype hmono]
      refine forall₂_congr fun early late => forall_congr' fun _ => forall_congr' fun hsplit => ?_
      exact iff_of_false (push_disagrees hsplit.1) not_false
    | _ =>
      have htype := hother .list nofun
      exact iff_of_true (elementwise_other _ _ _ _ _ _ _ clock s htype _) trivial
  | hSet fields =>
    rw [hSet_elementwise]
    cases v with
    | hash H => exact hash_overwrites.elementwise_iff key clock s hmono hlen H
    | _ =>
      have htype := hother .hash nofun
      exact iff_of_true (elementwise_other _ _ _ _ _ _ _ clock s htype _) trivial
  | zAdd entries =>
    rw [zAdd_elementwise]
    cases v with
    | sortedSet z => exact zset_overwrites.elementwise_iff key clock s hmono hlen z
    | _ =>
      have htype := hother .zset nofun
      exact iff_of_true (elementwise_other _ _ _ _ _ _ _ clock s htype _) trivial

/-- The deadline 1 passes after the type check and the first element. -/
def lapsing (n : ℕ) : Reading := ⟨if n < 2 then 0 else 1, 0⟩

theorem lapsing_mono : Monotone fun i => (lapsing i).instant := by
  intro i j hij
  show (if i < 2 then 0 else 1 : ℕ) ≤ if j < 2 then 0 else 1
  split <;> split <;> omega

/-- A field that is there and is set twice stands for a whole command after the deadline. -/
theorem write_atOneInstant_twice : AtOneInstant
    ((hSet [(Str.lit "f", Str.utf8 "1"), (Str.lit "f", Str.utf8 "2")]).run (Str.lit "k")) lapsing
    (Store.empty.put (Str.lit "k") (some (.hash ((∅ : ExtTreeMap Str Bytes).insert (Str.lit "f")
      (Str.utf8 "0")))) (some 1)) := by
  refine (write_atOneInstant_iff _ (v := .hash ((∅ : ExtTreeMap Str Bytes).insert (Str.lit "f")
    (Str.utf8 "0"))) (d := 1) (by simp) (by simp) lapsing_mono (by decide)).mpr ?_
  rintro early late hfields ⟨hearly, hlate, -⟩ e he
  match early, hearly with
  | [_], _ =>
    obtain ⟨rfl, rfl⟩ := List.cons.inj hfields
    obtain rfl := List.mem_singleton.mp he
    simp
  | _ :: _ :: early, _ =>
    have htail := (List.cons.inj (List.cons.inj hfields).2).2
    exact absurd (List.append_eq_nil_iff.mp htail.symm).2 hlate

/-- RPUSH of two elements answers 1 and keeps only the second. -/
theorem write_split_push :
    ((rPush [Str.utf8 "b", Str.utf8 "c"]).run (Str.lit "k")).runOver lapsing
      (Store.empty.put (Str.lit "k") (some (.list [Str.utf8 "a"])) (some 1)) 0 =
      (.ok (count 1), Store.empty.put (Str.lit "k") (some (.list [Str.utf8 "c"])) none, 3) ∧
    ¬ AtOneInstant ((rPush [Str.utf8 "b", Str.utf8 "c"]).run (Str.lit "k")) lapsing
      (Store.empty.put (Str.lit "k") (some (.list [Str.utf8 "a"])) (some 1)) := by
  have hsplit : Split lapsing 1 [Str.utf8 "b"] [Str.utf8 "c"] :=
    ⟨List.cons_ne_nil _ _, List.cons_ne_nil _ _, Nat.one_pos, Nat.le_refl 1⟩
  have htype : Store.typeName (.list [Str.utf8 "a"]) = Str.lit "list" := rfl
  rw [rPush_elementwise]
  constructor
  · have hbefore : ∀ i < [Str.utf8 "b"].length, (lapsing (1 + i)).instant < 1 := by decide
    exact elementwise_split _ _ _ _ _ _ _ lapsing _ htype hsplit.2.1 Nat.one_pos hbefore
      hsplit.2.2.2
  · intro h
    have hagrees := (elementwise_split_iff _ _ _ _ _ _ _ lapsing _ htype lapsing_mono hsplit).mp h
    exact push_disagrees hsplit.1 hagrees

end ElementWrite

end FireRedis
