import FireRedis.Commands.Transparent

/-!
# Times to live at the edge of 64 bits (commands/mod.rs, store/mod.rs)

EXPIRE multiplies its seconds without a check where SET EX rejects a product
that does not fit, and PTTL casts the milliseconds that are left down to `i64`,
where the two sentinels are. What both promise holds up to a bound.
-/

namespace FireRedis
open Std

/-! ### EXPIRE and SET EX -/

section Seconds

variable {n : UInt64}

theorem bulkToU64_of_parse {b : Bytes} (h : Decimal.parseU64 (Str.fromUtf8Lossy b).bytes = some n) :
    bulkToU64 (.bulkString (some b)) = .ok n := by
  rw [bulkToU64, h]
  rfl

theorem toNat_millis (h : n.toNat * 1000 < 2 ^ 64) : (n * 1000).toNat = n.toNat * 1000 := by
  rw [UInt64.toNat_mul]
  exact Nat.mod_eq_of_lt h

variable (F : FloatText) {key value secs : Value} {k : Str} {v : Bytes}
  (hkey : bulkToString key = .ok k) (hsecs : bulkToU64 secs = .ok n)
include hkey hsecs

theorem parse_expire : tryFrom F [.bulkString (some (Str.utf8 "EXPIRE")), key, secs] =
    .ok (.expire k (n * 1000)) := by
  show parseExpire [.bulkString (some (Str.utf8 "EXPIRE")), key, secs] = _
  rw [parseExpire, hkey, hsecs]
  rfl

omit hsecs in
theorem parse_set_option (hvalue : bulkToBytes value = .ok v) (opt : String)
    {r : Parsed (Option UInt64 × SetCondition)}
    (hopts : parseSetOptions [.bulkString (some (Str.utf8 opt)), secs] none .none = r) :
    tryFrom F [.bulkString (some (Str.utf8 "SET")), key, value,
      .bulkString (some (Str.utf8 opt)), secs] = r.map fun o => .set k v o.1 o.2 := by
  show parseSet [.bulkString (some (Str.utf8 "SET")), key, value,
    .bulkString (some (Str.utf8 opt)), secs] = _
  rw [parseSet, hkey, hvalue]
  simp only [Bind.bind, Except.bind, hopts]
  cases r <;> rfl

theorem parse_set_ex (hvalue : bulkToBytes value = .ok v) :
    tryFrom F [.bulkString (some (Str.utf8 "SET")), key, value,
      .bulkString (some (Str.utf8 "EX")), secs] =
    if n.toNat * 1000 < 2 ^ 64 then .ok (.set k v (some (n * 1000)) .none)
    else reject "ERR invalid expire time in 'set' command" := by
  have hopts : parseSetOptions [.bulkString (some (Str.utf8 "EX")), secs] none .none =
      if n.toNat * 1000 < 2 ^ 64 then .ok (some (n * 1000), .none)
      else reject "ERR invalid expire time in 'set' command" := by
    have hopt : toAsciiUppercase (Str.fromUtf8Lossy (Str.utf8 "EX")).bytes = Str.utf8 "EX" := by
      decide
    rw [parseSetOptions, bulkToString]
    simp only [Pure.pure, Except.pure, Bind.bind, Except.bind, hopt, true_or, ite_true, hsecs]
    rfl
  rw [parse_set_option F hkey hvalue "EX" hopts]
  split <;> rfl

theorem parse_set_px (hvalue : bulkToBytes value = .ok v) :
    tryFrom F [.bulkString (some (Str.utf8 "SET")), key, value,
      .bulkString (some (Str.utf8 "PX")), secs] = .ok (.set k v (some n) .none) := by
  have hopts : parseSetOptions [.bulkString (some (Str.utf8 "PX")), secs] none .none =
      .ok (some n, .none) := by
    have hopt : toAsciiUppercase (Str.fromUtf8Lossy (Str.utf8 "PX")).bytes = Str.utf8 "PX" := by
      decide
    have hne : Str.utf8 "PX" ≠ Str.utf8 "EX" := by decide
    rw [parseSetOptions, bulkToString]
    simp only [Pure.pure, Except.pure, Bind.bind, Except.bind, hopt, or_true, ite_true, hsecs,
      hne, ite_false]
    rfl
  rw [parse_set_option F hkey hvalue "PX" hopts]
  rfl

end Seconds

/-- EXPIRE sets the deadline that many seconds from now on every live key, or is
rejected, and accepts what SET EX accepts, exactly when the milliseconds fit in
64 bits. -/
theorem expire_seconds (F : FloatText) (ord : IterOrder) (info : Bytes) (key value secs : Value)
    (k : Str) (v : Bytes) (n : UInt64) (hkey : bulkToString key = .ok k)
    (hvalue : bulkToBytes value = .ok v) (hsecs : bulkToU64 secs = .ok n) :
    let expire := tryFrom F [.bulkString (some (Str.utf8 "EXPIRE")), key, secs]
    let setEx := tryFrom F [.bulkString (some (Str.utf8 "SET")), key, value,
      .bulkString (some (Str.utf8 "EX")), secs]
    ((∀ cmd, expire = .ok cmd → ∀ (s : Store) (now : Reading) e,
        s.live now.instant k = some e →
          ∃ s', (cmd.execute F ord info).runAt now s = (.ok (.integer 1), s') ∧
            s'.data[k]? = some e.value ∧
            s'.expirations[k]? = some (now.instant + n.toNat * 1000 * 1000000)) ∧
      ((∃ cmd, expire = .ok cmd) ↔ ∃ cmd, setEx = .ok cmd)) ↔ n.toNat * 1000 < 2 ^ 64 := by
  intro expire setEx
  have hexpire : expire = .ok (.expire k (n * 1000)) := parse_expire F hkey hsecs
  have hset := parse_set_ex F hkey hsecs hvalue
  rw [hexpire, show setEx = _ from hset]
  constructor
  · rintro ⟨-, hboth⟩
    obtain ⟨cmd, hcmd⟩ := hboth.mp ⟨_, rfl⟩
    by_contra hover
    rw [if_neg hover] at hcmd
    cases hcmd
  · intro hfits
    refine ⟨?_, fun _ => ⟨_, if_pos hfits⟩, fun _ => ⟨_, rfl⟩⟩
    intro cmd hcmd s now e he
    rw [← Except.ok.inj hcmd]
    have hrun := Store.expire_spec s now k (n * 1000)
    rw [he] at hrun
    refine ⟨_, by rw [Command.execute, handleExpire, runAt_bind_ok now hrun]; rfl, ?_, ?_⟩
    · rw [Store.put_data, if_pos rfl]
    · rw [Store.put_expirations, if_pos rfl, fromMillis, toNat_millis hfits]

/-- EXPIRE k 10 on a string. -/
theorem expire_seconds_ten :
    let F : FloatText := noFloats
    let s := Store.empty.put (Str.lit "k") (some (.string [])) none
    ∃ s', ((Command.expire (Str.lit "k") 10000).execute F .sorted []).runAt ⟨3, 0⟩ s =
      (.ok (.integer 1), s') ∧ s'.expirations[Str.lit "k"]? = some 10000000003 := by
  intro F s
  have hlive : s.live 3 (Str.lit "k") = some ⟨.string [], none⟩ := Store.live_put_self ..
  have hall := expire_seconds F .sorted [] (.bulkString (some (Str.utf8 "k")))
    (.bulkString (some [])) (.integer 10) (Str.lit "k") [] 10 rfl rfl rfl
  obtain ⟨hrun, -⟩ := hall.mpr (by decide)
  obtain ⟨s', hs', -, hexp⟩ := hrun (.expire (Str.lit "k") 10000) rfl s ⟨3, 0⟩ _ hlive
  exact ⟨s', hs', hexp⟩

/-- EXPIRE k 18446744073709552 is accepted, and the key lives on for 384 ms; SET
EX rejects the same number. -/
theorem expire_seconds_wraps :
    let F : FloatText := noFloats
    let secs : Value := .bulkString (some (Str.utf8 "18446744073709552"))
    let s := Store.empty.put (Str.lit "k") (some (.string [])) none
    bulkToU64 secs = .ok 18446744073709552 ∧
      tryFrom F [.bulkString (some (Str.utf8 "EXPIRE")), .bulkString (some (Str.utf8 "k")), secs] =
        .ok (.expire (Str.lit "k") 384) ∧
      (((Command.expire (Str.lit "k") 384).execute F .sorted []).runAt ⟨0, 0⟩
        s).2.expirations[Str.lit "k"]? = some 384000000 ∧
      tryFrom F [.bulkString (some (Str.utf8 "SET")), .bulkString (some (Str.utf8 "k")),
        .bulkString (some []), .bulkString (some (Str.utf8 "EX")), secs] =
        reject "ERR invalid expire time in 'set' command" := by
  intro F secs s
  have hsecs : bulkToU64 secs = .ok 18446744073709552 := bulkToU64_of_parse (by decide)
  have hlive : s.live 0 (Str.lit "k") = some ⟨.string [], none⟩ := Store.live_put_self ..
  have hrun := Store.expire_spec s ⟨0, 0⟩ (Str.lit "k") 384
  rw [hlive] at hrun
  refine ⟨hsecs, parse_expire F rfl hsecs, ?_, ?_⟩
  · rw [Command.execute, handleExpire, runAt_bind_ok _ hrun]
    exact Store.put_expirations ..
  · rw [parse_set_ex F rfl hsecs rfl, if_neg (by decide)]

/-! ### PTTL and TTL -/

/-- A reply of PTTL, or of TTL with 1000 milliseconds to the unit. -/
structure Classified (t : Instant) (e : Option Entry) (unit : ℕ) (r : Int64) : Prop where
  absent : r = -2 ↔ e = none
  permanent : r = -1 ↔ ∃ v, e = some ⟨v, none⟩
  left : ∀ v d, e = some ⟨v, some d⟩ → r.toInt = (asMillis (d - t) / unit : ℕ)

theorem classified_absent (t : Instant) (unit : ℕ) : Classified t none unit (-2) where
  absent := by simp
  permanent := by simp
  left := nofun

theorem classified_permanent (t : Instant) (unit : ℕ) (v : StoredValue) :
    Classified t (some ⟨v, none⟩) unit (-1) where
  absent := by simp
  permanent := by simp
  left := nofun

theorem toInt_nonneg {r : Int64} {n : ℕ} (h : r.toInt = n) : r ≠ -2 ∧ r ≠ -1 := by
  have htwo : (-2 : Int64).toInt = -2 := rfl
  have hone : (-1 : Int64).toInt = -1 := rfl
  constructor
  · rintro rfl
    omega
  · rintro rfl
    omega

theorem classified_left {t : Instant} {unit : ℕ} {v : StoredValue} {d : Instant} {r : Int64} :
    Classified t (some ⟨v, some d⟩) unit r ↔ r.toInt = (asMillis (d - t) / unit : ℕ) := by
  constructor
  · intro h
    exact h.left v d rfl
  · intro h
    have hneg := toInt_nonneg h
    refine ⟨by simp [hneg.1], by simp [hneg.2], ?_⟩
    intro v' d' he
    rw [← Option.some.inj (Entry.mk.inj (Option.some.inj he)).2]
    exact h

/-- PTTL and TTL reply as documented. -/
def Classifies (s : Store) (now : Reading) (key : Str) : Prop :=
  ∃ p q, ((handlePttl key).runAt now s).1 = .ok (.integer p) ∧
    ((handleTtl key).runAt now s).1 = .ok (.integer q) ∧
    Classified now.instant (s.live now.instant key) 1 p ∧
    Classified now.instant (s.live now.instant key) 1000 q

theorem toInt_div_thousand {r : Int64} {ms : ℕ} (h : r.toInt = ms) :
    (r / 1000).toInt = (ms / 1000 : ℕ) := by
  have hlow := r.le_toInt
  have hhigh := r.toInt_lt
  have hthousand : (1000 : Int64).toInt = 1000 := rfl
  rw [Int64.toInt_div, hthousand, h]
  rw [h] at hhigh
  have hdiv : ((ms : ℤ).tdiv 1000) = (ms / 1000 : ℕ) := rfl
  rw [hdiv]
  exact Int.bmod_eq_of_le (by omega) (by omega)

section Ttl

variable (s : Store) (now : Reading) (key : Str)

/-- What TTL makes of a reply of PTTL. -/
def ttlOf (ms : Int64) : Int64 := if ms = -2 then -2 else if ms = -1 then -1 else ms / 1000

theorem pttl_reply : ((handlePttl key).runAt now s).1 =
    .ok (.integer (Store.pttlOf now.instant (s.live now.instant key))) := by
  rw [handlePttl, runAt_bind_ok now (Store.pttl_spec s now key)]
  rfl

theorem ttl_reply : ((handleTtl key).runAt now s).1 =
    .ok (.integer (ttlOf (Store.pttlOf now.instant (s.live now.instant key)))) := by
  have hrun : (Store.ttl key).runAt now s =
      (.ok (ttlOf (Store.pttlOf now.instant (s.live now.instant key))),
        s.check now.instant key) := by
    rw [Store.ttl, runAt_bind_ok now (Store.pttl_spec s now key)]
    rfl
  rw [handleTtl, runAt_bind_ok now hrun]
  rfl

theorem asMillis_lt (d t : ℕ) : d < t + 2 ^ 63 * 1000000 ↔ asMillis (d - t) < 2 ^ 63 := by
  unfold asMillis
  omega

/-- The replies are right exactly when the milliseconds left fit in `i64`. -/
theorem classifies_iff : Classifies s now key ↔ ∀ v d,
    s.live now.instant key = some ⟨v, some d⟩ → d < now.instant + 2 ^ 63 * 1000000 := by
  have hreplies : Classifies s now key ↔
      Classified now.instant (s.live now.instant key) 1
        (Store.pttlOf now.instant (s.live now.instant key)) ∧
      Classified now.instant (s.live now.instant key) 1000
        (ttlOf (Store.pttlOf now.instant (s.live now.instant key))) := by
    unfold Classifies
    rw [pttl_reply, ttl_reply]
    constructor
    · rintro ⟨p, q, hp, hq, hpttl, httl⟩
      rw [← Value.integer.inj (Except.ok.inj hp)] at hpttl
      rw [← Value.integer.inj (Except.ok.inj hq)] at httl
      exact ⟨hpttl, httl⟩
    · rintro ⟨hpttl, httl⟩
      exact ⟨_, _, rfl, rfl, hpttl, httl⟩
  rw [hreplies]
  generalize s.live now.instant key = e
  match e with
  | none => exact ⟨fun _ => nofun, fun _ => ⟨classified_absent _ _, classified_absent _ _⟩⟩
  | some ⟨v, none⟩ =>
    exact ⟨fun _ => nofun, fun _ => ⟨classified_permanent _ _ v, classified_permanent _ _ v⟩⟩
  | some ⟨v, some d⟩ =>
    have hfits : d < now.instant + 2 ^ 63 * 1000000 ↔ asMillis (d - now.instant) < 2 ^ 63 :=
      asMillis_lt d now.instant
    rw [classified_left, classified_left, Nat.div_one]
    constructor
    · rintro ⟨hpttl, -⟩ v' d' he
      have hd : d = d' := Option.some.inj (Entry.mk.inj (Option.some.inj he)).2
      have hhigh := (Store.pttlOf now.instant (some ⟨v, some d⟩)).toInt_lt
      rw [hpttl] at hhigh
      rw [← hd, hfits]
      exact_mod_cast hhigh
    · intro hbound
      have hms : (Store.pttlOf now.instant (some ⟨v, some d⟩)).toInt =
          asMillis (d - now.instant) :=
        Int64.toInt_ofNat_of_lt (hfits.mp (hbound v d rfl))
      refine ⟨hms, ?_⟩
      have hneg := toInt_nonneg hms
      rw [ttlOf, if_neg hneg.1, if_neg hneg.2, toInt_div_thousand hms]

end Ttl

/-! ### Deadlines over a run -/

/-- The time to live that a command sets. -/
def Command.ttlMs : Command → Option UInt64
  | .set _ _ px _ => px
  | .expire _ ms => some ms
  | _ => none

section Execute

variable (F : FloatText) (ord : IterOrder) (info : Bytes) (now : Reading) {s : Store}

theorem handleSet_store (key : Str) (value : Bytes) (px : Option UInt64)
    (condition : SetCondition) :
    ((handleSet key value px condition).runAt now s).2 = s.check now.instant key ∨
      ((handleSet key value px condition).runAt now s).2 = s.put key (some (.string value))
        (px.map fun ms => now.instant + fromMillis ms) := by
  rw [handleSet, runAt_bind_ok now (Store.existsKey_spec s now key)]
  split
  · exact Or.inl rfl
  · split
    · exact Or.inl rfl
    · rw [runAt_bind_ok now (Store.set_run ..), Store.put_check]
      exact Or.inr rfl

theorem handleSet_run (s : Store) (key : Str) (value : Bytes) (px : Option UInt64) :
    (handleSet key value px .none).runAt now s = (.ok ok, s.put key (some (.string value))
      (px.map fun ms => now.instant + fromMillis ms)) := by
  rw [handleSet, runAt_bind_ok now (Store.existsKey_spec s now key), if_neg (by simp),
    if_neg (by simp), runAt_bind_ok now (Store.set_run ..), Store.put_check]
  rfl

theorem handleExpire_store (key : Str) (ms : UInt64) :
    ((handleExpire key ms).runAt now s).2 = s.check now.instant key ∨
      ∃ value, ((handleExpire key ms).runAt now s).2 =
        s.put key (some value) (some (now.instant + fromMillis ms)) := by
  have hrun := Store.expire_spec s now key ms
  cases he : s.live now.instant key with
  | none =>
    rw [he] at hrun
    rw [handleExpire, runAt_bind_ok now hrun]
    exact Or.inl rfl
  | some e =>
    rw [he] at hrun
    rw [handleExpire, runAt_bind_ok now hrun]
    exact Or.inr ⟨e.value, rfl⟩

theorem put_deadline (ttl : Option UInt64) {key j : Str} {value : Option StoredValue} {e : Entry}
    {d : Instant} (he : (s.put key value (ttl.map fun ms => now.instant + fromMillis ms)).live
      now.instant j = some e) (hd : e.deadline = some d) :
    (∃ e₀, s.live now.instant j = some e₀ ∧ e₀.deadline = some d) ∨
      ∃ ms, ttl = some ms ∧ d = now.instant + fromMillis ms := by
  rw [Store.live_put] at he
  by_cases hj : j = key
  · rw [hj, Function.update_self] at he
    have hnew := (liveOf_eq_some.mp he).2.1.trans hd
    obtain ⟨ms, hms, rfl⟩ := Option.map_eq_some_iff.mp hnew
    exact Or.inr ⟨ms, hms, rfl⟩
  · rw [Function.update_of_ne hj] at he
    exact Or.inl ⟨e, he, hd⟩

/-- After a command, the deadline of a live entry is an old one or the one that
the command sets. -/
theorem execute_deadline (cmd : Command) (hs : s.Inv fun _ => True) {key : Str} {e : Entry}
    {d : Instant} (he : ((cmd.execute F ord info).runAt now s).2.live now.instant key = some e)
    (hd : e.deadline = some d) :
    (∃ e₀, s.live now.instant key = some e₀ ∧ e₀.deadline = some d) ∨
      ∃ ms, cmd.ttlMs = some ms ∧ d = now.instant + fromMillis ms := by
  cases hwhole : cmd.isWhole with
  | false =>
    have hwithin := within_execute Closed.all F ord info cmd hwhole fun _ _ => trivial
    rcases (Within.effect now hwithin hs).deadline key e d he hd with hold | ⟨hsets, -⟩
    · exact Or.inl hold
    · cases cmd with
      | set k value px condition =>
        rcases handleSet_store now k value px condition (s := s) with h | h
        · rw [Command.execute, h, Store.live_check] at he
          exact Or.inl ⟨e, he, hd⟩
        · rw [Command.execute, h] at he
          exact put_deadline now px he hd
      | expire k ms =>
        rcases handleExpire_store now k ms (s := s) with h | ⟨value, h⟩
        · rw [Command.execute, h, Store.live_check] at he
          exact Or.inl ⟨e, he, hd⟩
        · rw [Command.execute, h] at he
          exact put_deadline now (some ms) he hd
      | _ => cases hsets
  | true =>
    have hkept : s.live now.instant key = some e := by
      cases cmd with
      | del ks =>
        rw [Command.execute, handleDel_run, Store.live_forget] at he
        exact (Option.ite_none_left_eq_some.mp he).2
      | keys pattern =>
        by_cases hpat : pattern = Str.lit "*"
        · rwa [Command.execute, hpat, handleKeys_run, Store.live_evicted hs] at he
        · rwa [Command.execute, handleKeys, if_pos hpat, runAt_pure] at he
      | flushAll =>
        rw [Command.execute, handleFlushall_run, Store.live_empty] at he
        cases he
      | _ => cases hwhole
    exact Or.inl ⟨e, hkept, hd⟩

end Execute

/-- The stores after commands at readings that do not go back, the last at `t`,
with only such times to live as `ttl` allows. -/
inductive Commanded (F : FloatText) (ttl : UInt64 → Prop) : Instant → Store → Prop
  | empty (t : Instant) : Commanded F ttl t Store.empty
  | command (t : Instant) (s : Store) (ord : IterOrder) (info : Bytes) (now : Reading)
      (cmd : Command) (hs : Commanded F ttl t s) (hclock : t ≤ now.instant)
      (httl : ∀ ms, cmd.ttlMs = some ms → ttl ms) :
      Commanded F ttl now.instant ((cmd.execute F ord info).runAt now s).2

/-- What is left to a live entry is never more than the times to live allow. -/
theorem commanded_near {F : FloatText} {bound : ℕ} {t : Instant} {s : Store}
    (h : Commanded F (fun ms => ms.toNat < bound) t s) :
    (s.Inv fun _ => True) ∧ ∀ key e d, s.live t key = some e → e.deadline = some d →
      d < t + bound * 1000000 := by
  induction h with
  | empty t =>
    refine ⟨Store.inv_empty _, fun key e d he => ?_⟩
    rw [Store.live_empty] at he
    cases he
  | command t s ord info now cmd hs hclock httl ih =>
    refine ⟨inv_execute F ord info now Closed.all cmd (fun _ _ => trivial) ih.1, ?_⟩
    intro key e d he hd
    rcases execute_deadline F ord info now cmd ih.1 he hd with ⟨e₀, he₀, hd₀⟩ | ⟨ms, hms, rfl⟩
    · rw [Store.live_later s hclock] at he₀
      have hold := ih.2 key e₀ d (Option.filter_eq_some_iff.mp he₀).1 hd₀
      exact hold.trans_le (Nat.add_le_add_right hclock _)
    · exact Nat.add_lt_add_left (Nat.mul_lt_mul_of_pos_right (httl ms hms) (by decide)) _

/-- PTTL and TTL classify a key in every state exactly when the milliseconds to
its deadline fit in `i64`, and so after any commands whose times to live do. -/
theorem ttl_classifies (F : FloatText) :
    (∀ (s : Store) (now : Reading) (key : Str), Classifies s now key ↔ ∀ v d,
      s.live now.instant key = some ⟨v, some d⟩ → d < now.instant + 2 ^ 63 * 1000000) ∧
    ∀ t s, Commanded F (fun ms => ms.toNat < 2 ^ 63) t s → ∀ (now : Reading) (key : Str),
      t ≤ now.instant → Classifies s now key := by
  refine ⟨classifies_iff, fun t s h now key hclock => (classifies_iff s now key).mpr ?_⟩
  intro v d he
  rw [Store.live_later s hclock] at he
  have hnear := (commanded_near h).2 key _ d (Option.filter_eq_some_iff.mp he).1 rfl
  exact hnear.trans_le (Nat.add_le_add_right hclock _)

/-- A key that is set to live for 1500 ms. -/
theorem ttl_classifies_short :
    let F : FloatText := noFloats
    Classifies (((Command.set (Str.lit "k") [] (some 1500) .none).execute F .sorted []).runAt ⟨0, 0⟩
      Store.empty).2 ⟨7, 0⟩ (Str.lit "k") := by
  intro F
  have hset : Commanded F (fun ms => ms.toNat < 2 ^ 63) 0
      (((Command.set (Str.lit "k") [] (some 1500) .none).execute F .sorted []).runAt ⟨0, 0⟩
        Store.empty).2 := by
    apply Commanded.command 0 Store.empty .sorted [] ⟨0, 0⟩ _ (.empty 0) (Nat.le_refl 0)
    intro ms hms
    rw [← Option.some.inj hms]
    decide
  exact (ttl_classifies F).2 0 _ hset ⟨7, 0⟩ (Str.lit "k") (by decide)

/-- SET k with the longest TTL that PX accepts: PTTL then replies that the key
has no deadline. -/
theorem ttl_longest :
    let F : FloatText := noFloats
    let px : Value := .bulkString (some (Str.utf8 "18446744073709551615"))
    let s := (((Command.set (Str.lit "k") [] (some 18446744073709551615) .none).execute F .sorted
      []).runAt ⟨0, 0⟩ Store.empty).2
    tryFrom F [.bulkString (some (Str.utf8 "SET")), .bulkString (some (Str.utf8 "k")),
      .bulkString (some []), .bulkString (some (Str.utf8 "PX")), px] =
        .ok (.set (Str.lit "k") [] (some 18446744073709551615) .none) ∧
      s.live 0 (Str.lit "k") = some ⟨.string [], some (18446744073709551615 * 1000000)⟩ ∧
      ((handlePttl (Str.lit "k")).runAt ⟨0, 0⟩ s).1 = .ok (.integer (-1)) := by
  intro F px s
  have hpx : bulkToU64 px = .ok 18446744073709551615 := bulkToU64_of_parse (by decide)
  have hlive : s.live 0 (Str.lit "k") =
      some ⟨.string [], some (18446744073709551615 * 1000000)⟩ := by
    have hset := handleSet_run ⟨0, 0⟩ Store.empty (Str.lit "k") [] (some 18446744073709551615)
    have hms : 0 + fromMillis 18446744073709551615 = 18446744073709551615 * 1000000 := by decide
    rw [show s = _ from congrArg Prod.snd hset, Store.live_put_self, ← hms]
    exact liveOf_ttl 0 (.string []) (by decide)
  refine ⟨parse_set_px F rfl hpx rfl, hlive, ?_⟩
  rw [pttl_reply, hlive]
  rfl

end FireRedis
