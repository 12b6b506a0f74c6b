import FireRedis.Persistence.Faithful
import FireRedis.Persistence.Reload

/-!
# Stores that a server can reach

Commands, evictions, replays and loads, each at its own reading of the clock,
keep the two maps in step and leave no empty collection behind. A save of a
reachable store is undone by a load, and a key without a live entry never gets
an old deadline back.
-/

namespace FireRedis
open Std RdbSerializer RdbDeserializer

/-- The stores reached from the empty one at readings that `clock` allows. A
loaded file was saved from a reachable store and fits in memory. -/
inductive Reachable (F : FloatText) (clock : Reading → Prop) : Store → Prop
  | empty : Reachable F clock Store.empty
  | command (s : Store) (ord : IterOrder) (info : Bytes) (now : Reading) (args : List Value)
      (cmd : Command) (hs : Reachable F clock s) (hclock : clock now)
      (hparse : tryFrom F args = .ok cmd) :
      Reachable F clock ((cmd.execute F ord info).runAt now s).2
  | evict (s : Store) (now : Reading) (hs : Reachable F clock s) (hclock : clock now) :
      Reachable F clock (Store.evictExpired.runAt now s).2
  | replay (ord : IterOrder) (info : Bytes) (fs : FileSystem) (path : PathBuf) (now : Reading)
      (hclock : clock now) :
      Reachable F clock ((replay F ord info fs path).runAt now Store.empty).2
  | load (s s' : Store) (ord : IterOrder) (fs fs' : FileSystem) (path : PathBuf) (bytes : Bytes)
      (fs'' : FileSystem) (path' : PathBuf) (saved now : Reading) (hs : Reachable F clock s)
      (hsave : (saveToFile F ord path fs).runAt saved s = (.ok fs', s'))
      (hfits : FitsAt s saved.instant) (hbytes : fs'.read path = some bytes)
      (hlen : bytes.length ≤ isizeMax) (hfile : fs''.read path' = some bytes)
      (hclock : clock now) :
      Reachable F clock ((loadFromFile F fs'' path').runAt now Store.empty).2

section Invariant

variable {F : FloatText} {clock : Reading → Prop}

/-- A command that was parsed adds members to every set it makes. -/
theorem keeps_parsed (ord : IterOrder) (info : Bytes) {args : List Value} {cmd : Command}
    (hparse : tryFrom F args = .ok cmd) :
    Keeps StoredValue.WellFormed (cmd.execute F ord info) :=
  keeps_execute F ord info Closed.wellFormed cmd fun k hk =>
    absurd hk ((tryFrom_named hparse).1 k)

theorem keeps_executeCommand (ord : IterOrder) (info : Bytes) (command : Value) :
    Keeps StoredValue.WellFormed (executeCommand F ord info command) := by
  rcases request_cases F command with ⟨args, cmd, rfl, hcmd⟩ | ⟨reply, hrejected⟩
  · rw [executeCommand_parsed F ord info hcmd]
    exact Keeps.bind (keeps_parsed ord info hcmd) fun _ => Keeps.pure ()
  · rw [hrejected.execute]
    exact Keeps.pure ()

theorem keeps_replay (ord : IterOrder) (info : Bytes) (fs : FileSystem) (path : PathBuf) :
    Keeps StoredValue.WellFormed (replay F ord info fs path) := by
  rw [replay]
  cases fs.read path with
  | none => exact Keeps.pure 0
  | some bytes =>
    show Keeps _ (replayBytes (executeCommand F ord info) bytes >>= _)
    rw [replayBytes_eq]
    apply Keeps.bind
    · exact Keeps.bind
        (Keeps.forM _ fun command _ => keeps_executeCommand ord info command)
        fun _ => Keeps.pure _
    · intro outcome
      cases outcome with
      | error panic => exact Keeps.fault panic
      | ok n => exact Keeps.pure n

/-- Every operation keeps the store well formed, and whatever deadlines set at
its reading keep. -/
theorem reachable_induction {I : Store → Prop} (hempty : I Store.empty)
    (hstep : ∀ now s s', clock now → NewDeadlines now.instant s s' → I s → I s') {s : Store}
    (h : Reachable F clock s) : s.Inv StoredValue.WellFormed ∧ I s := by
  have hinit : Store.empty.Inv StoredValue.WellFormed := Store.inv_empty _
  -- One operation, from a store for which both hold.
  have hone : ∀ {α : Type} {m : StoreM α} (now : Reading) {s : Store},
      Keeps StoredValue.WellFormed m → clock now → s.Inv StoredValue.WellFormed → I s →
        (m.runAt now s).2.Inv StoredValue.WellFormed ∧ I (m.runAt now s).2 := by
    intro α m now s hm hclock hs hI
    obtain ⟨hinv, hnew⟩ := hm now s hs
    exact ⟨hinv, hstep now s _ hclock hnew hI⟩
  induction h with
  | empty => exact ⟨hinit, hempty⟩
  | command s ord info now args cmd hs hclock hparse ih =>
    exact hone now (keeps_parsed ord info hparse) hclock ih.1 ih.2
  | evict s now hs hclock ih => exact hone now Keeps.evictExpired hclock ih.1 ih.2
  | replay ord info fs path now hclock =>
    exact hone now (keeps_replay ord info fs path) hclock hinit hempty
  | load s s' ord fs fs' path bytes fs'' path' saved now hs hsave hfits hbytes hlen hfile hclock
      ih =>
    obtain ⟨fs₀, hrun, hread, -⟩ := saveToFile_run F ord saved ih.1 path fs
    obtain ⟨rfl, -⟩ : fs' = fs₀ ∧ s' = s.evicted saved.instant := by
      have h := hsave.symm.trans hrun
      exact ⟨Except.ok.inj (Prod.mk.inj h).1, (Prod.mk.inj h).2⟩
    obtain rfl : bytes = savedBytes F ord saved (s.evicted saved.instant) :=
      Option.some.inj (hbytes.symm.trans hread)
    exact hone now (keeps_loadSaved F ord saved ih.1 hfits hfile hlen) hclock hinit hempty

theorem reachable_inv {s : Store} (h : Reachable F clock s) : s.Inv StoredValue.WellFormed :=
  (reachable_induction (I := fun _ => True) trivial (fun _ _ _ _ _ _ => trivial) h).1

theorem reachable_handleConnection (ord : IterOrder) (info : Bytes) {now : Reading}
    (hclock : clock now) (frames : List Value) {s : Store} (h : Reachable F clock s) :
    Reachable F clock (handleConnection F ord info now frames s).store := by
  induction frames generalizing s with
  | nil => exact h
  | cons frame frames ih =>
    have hone : Reachable F clock ((respond F ord info frame).runAt now s).2 := by
      rcases request_cases F frame with ⟨args, cmd, rfl, hcmd⟩ | ⟨reply, hrejected⟩
      · rw [respond_parsed F ord info hcmd]
        exact .command s ord info now args cmd h hclock hcmd
      · rw [hrejected.respond]
        exact h
    rw [handleConnection]
    rcases hrun : (respond F ord info frame).runAt now s with ⟨r, t⟩
    rw [hrun] at hone
    cases r with
    | error p => exact hone
    | ok reply => exact ih hone

end Invariant

/-! ### The store invariant -/

def StoredValue.isEmptyCollection : StoredValue → Bool
  | .string _ => false
  | .list items => items.isEmpty
  | .set S => S.isEmpty
  | .hash H => H.isEmpty
  | .sortedSet z => z.scores.isEmpty || z.tree.isEmpty

theorem StoredValue.WellFormed.nonempty {v : StoredValue} (h : v.WellFormed) :
    v.isEmptyCollection = false := by
  cases v with
  | string b => rfl
  | list items =>
    have hne : items ≠ [] := h
    simpa [isEmptyCollection] using hne
  | set S => exact h
  | hash H => exact h
  | sortedSet z =>
    obtain ⟨hne, hz⟩ : z.scores.isEmpty = false ∧ z.Consistent := h
    obtain ⟨m, x, hx⟩ := (ExtTreeMap.isEmpty_eq_false_iff_exists z.scores).mp hne
    obtain ⟨b, hb, -⟩ := (hz.linked m x).mp ⟨x, hx, rfl⟩
    have htree : z.tree.isEmpty = false := by
      apply Bool.eq_false_iff.mpr
      intro hempty
      rw [ExtTreeMap.isEmpty_iff.mp hempty] at hb
      simp at hb
    rw [isEmptyCollection, hne, htree]
    rfl

/-- Keys with a deadline have a value, and no collection is empty. -/
structure Store.InStep (s : Store) : Prop where
  deadlines : ∀ key : Str, s.expirations[key]? ≠ none → s.data[key]? ≠ none
  collections : ∀ (key : Str) v, s.data[key]? = some v → v.isEmptyCollection = false

/-- In every reachable store the maps are in step, and a command gives a key
that was not live before no deadline but the one it sets itself. -/
theorem reachable_inStep (F : FloatText) (clock : Reading → Prop) (s : Store)
    (h : Reachable F clock s) :
    s.InStep ∧ ∀ (ord : IterOrder) (info : Bytes) (now : Reading) args cmd,
      tryFrom F args = .ok cmd → ∀ (key : Str) e d, s.live now.instant key = none →
        ((cmd.execute F ord info).runAt now s).2.live now.instant key = some e →
          e.deadline = some d → cmd.setsDeadline = true ∧ SetAt now.instant d := by
  have hs := reachable_inv h
  refine ⟨⟨fun key hexp hdata => hexp (hs.deadlines key hdata),
    fun key v hv => (hs.values key v hv).nonempty⟩, ?_⟩
  intro ord info now args cmd hparse key e d hnone he hd
  cases hwhole : cmd.isWhole with
  | false =>
    have hwithin := within_execute Closed.wellFormed F ord info cmd hwhole fun k hk =>
      absurd hk ((tryFrom_named hparse).1 k)
    rcases (Within.effect now hwithin hs).deadline key e d he hd with ⟨e₀, he₀, -⟩ | hset
    · rw [hnone] at he₀
      cases he₀
    · exact hset
  | true =>
    cases cmd with
    | del ks =>
      have hm := handleDel_run now s ks
      rw [Command.execute, hm, Store.live_forget, hnone] at he
      simp at he
    | keys pattern =>
      by_cases hpat : pattern = Str.lit "*"
      · rw [Command.execute, hpat, handleKeys_run, Store.live_evicted hs, hnone] at he
        cases he
      · rw [Command.execute, handleKeys, if_pos hpat, runAt_pure, hnone] at he
        cases he
    | flushAll =>
      rw [Command.execute, handleFlushall_run, Store.live_empty] at he
      cases he
    | _ => cases hwhole

/-- A set that is filled and emptied again. -/
theorem reachable_inStep_emptied :
    let F : FloatText := noFloats
    let filled := (((Command.sAdd (Str.lit "k") [Str.utf8 "m"]).execute F .sorted []).runAt ⟨0, 0⟩
      Store.empty).2
    (((Command.sRem (Str.lit "k") [Str.utf8 "m"]).execute F .sorted []).runAt ⟨3, 0⟩
      filled).2.InStep := by
  intro F filled
  have hadd : tryFrom F [bulk (Str.utf8 "SADD"), bulk (Str.utf8 "k"), bulk (Str.utf8 "m")] =
      .ok (.sAdd (Str.lit "k") [Str.utf8 "m"]) := rfl
  have hrem : tryFrom F [bulk (Str.utf8 "SREM"), bulk (Str.utf8 "k"), bulk (Str.utf8 "m")] =
      .ok (.sRem (Str.lit "k") [Str.utf8 "m"]) := rfl
  have hfilled : Reachable F (fun _ => True) filled :=
    Reachable.command _ .sorted [] ⟨0, 0⟩ _ _ Reachable.empty trivial hadd
  exact (reachable_inStep F (fun _ => True) _
    (Reachable.command filled .sorted [] ⟨3, 0⟩ _ _ hfilled trivial hrem)).1

/-! ### Saving and loading -/

/-- The monotonic clock counts whole milliseconds. -/
def WholeMillis (now : Reading) : Prop := 1000000 ∣ now.instant

theorem reachable_whole {F : FloatText} {s : Store} (h : Reachable F WholeMillis s) (key : Str)
    (d : Instant) (hd : s.expirations[key]? = some d) : 1000000 ∣ d := by
  have hall : ∀ (key : Str) d, s.expirations[key]? = some d → 1000000 ∣ d := by
    apply (reachable_induction (I := fun s => ∀ (key : Str) d,
      s.expirations[key]? = some d → 1000000 ∣ d) _ _ h).2
    · intro key d hd
      simp [Store.empty] at hd
    · intro now s s' hclock hnew hs key d hd
      rcases hnew key d hd with hold | ⟨ms, rfl⟩
      · exact hs key d hold
      · exact Nat.dvd_add hclock (Nat.dvd_mul_left 1000000 ms.toNat)
  exact hall key d hd

theorem reachable_whole_live {F : FloatText} {s : Store} (h : Reachable F WholeMillis s)
    {now : Reading} (hnow : WholeMillis now) (key : Str) (e : Entry) (d : Instant)
    (he : s.live now.instant key = some e) (hd : e.deadline = some d) :
    1000000 ∣ d - now.instant := by
  have hexp : s.expirations[key]? = some d := by rw [(liveOf_eq_some.mp he).2.1, hd]
  exact Nat.dvd_sub (reachable_whole h key d hexp) hnow

/-- The bit pattern of a score in decimal. -/
def bitText : FloatText where
  parse s := (Decimal.parseU64 s.bytes).map F64.mk
  toString x := Str.fromUtf8Lossy (Decimal.displayU64 x.bits)

theorem bitText_roundTrips : bitText.RoundTrips := by
  intro x
  have htext : (Str.fromUtf8Lossy (Decimal.displayU64 x.bits)).bytes =
      Decimal.displayU64 x.bits :=
    Str.fromUtf8Lossy_of_ascii _ (Decimal.ascii_decimal _)
  refine ⟨x, ?_, rfl⟩
  show (Decimal.parseU64 (Str.fromUtf8Lossy (Decimal.displayU64 x.bits)).bytes).map F64.mk = _
  rw [htext, Decimal.parseU64_displayU64]
  rfl

/-- A saved file of a reachable store, loaded into an empty store at the same
clock reading, gives the live dataset that was saved. -/
theorem load_save (F : FloatText) (hF : F.RoundTrips) (s : Store)
    (h : Reachable F WholeMillis s) (ord : IterOrder) (path : PathBuf) (fs : FileSystem)
    (now : Reading) (hnow : WholeMillis now) (hfits : FitsAt s now.instant)
    (hunix : ∀ key e d, s.live now.instant key = some e → e.deadline = some d →
      now.unixMs.toNat + asMillis (d - now.instant) < 2 ^ 64) :
    ∃ fs' s' bytes, (saveToFile F ord path fs).runAt now s = (.ok fs', s') ∧
      fs'.read path = some bytes ∧
      (bytes.length ≤ isizeMax → ∃ loaded,
        (loadFromFile F fs' path).runAt now Store.empty = (.ok (.ok ()), loaded) ∧
          Dataset.Related Eq (s.live now.instant) (loaded.live now.instant)) := by
  have hs := reachable_inv h
  obtain ⟨fs', hsave, hread, -⟩ := saveToFile_run F ord now hs path fs
  refine ⟨fs', _, _, hsave, hread, fun hlen => ?_⟩
  exact reload F ord now hs hF hfits hread hlen (reachable_whole_live h hnow) hunix

section Volatile

/-- What `SET k v PX 5` leaves in an empty store. -/
def volatileString : Store :=
  (((Command.set (Str.lit "k") (Str.utf8 "v") (some 5) .none).execute bitText .sorted []).runAt
    ⟨0, 0⟩ Store.empty).2

theorem volatileString_eq : volatileString =
    Store.empty.put (Str.lit "k") (some (.string (Str.utf8 "v"))) (some 5000000) := rfl

theorem reachable_volatileString : Reachable bitText WholeMillis volatileString := by
  have hparse : tryFrom bitText [bulk (Str.utf8 "SET"), bulk (Str.utf8 "k"), bulk (Str.utf8 "v"),
      bulk (Str.utf8 "PX"), bulk (Str.utf8 "5")] =
        .ok (.set (Str.lit "k") (Str.utf8 "v") (some 5) .none) := rfl
  exact .command _ .sorted [] ⟨0, 0⟩ _ _ .empty (Nat.dvd_zero _) hparse

theorem volatileString_fits : volatileString.Inv StoredValue.Fits := by
  rw [volatileString_eq]
  apply Store.inv_put (Store.inv_empty _)
  · intro value hv
    rw [← Option.some.inj hv]
    trivial
  · simp

theorem volatileString_deadline {key : Str} {e : Entry} {d : Instant}
    (he : volatileString.live 0 key = some e) (hd : e.deadline = some d) : d = 5000000 := by
  have hexp := (liveOf_eq_some.mp he).2.1.trans hd
  rw [volatileString_eq, Store.put_expirations] at hexp
  split at hexp
  · exact (Option.some.inj hexp).symm
  · simp [Store.empty] at hexp

end Volatile

/-- A string with a deadline. -/
theorem load_save_string :
    let s := (((Command.set (Str.lit "k") (Str.utf8 "v") (some 5) .none).execute bitText .sorted
      []).runAt ⟨0, 0⟩ Store.empty).2
    ∃ fs' s' bytes, (saveToFile bitText .sorted (Str.utf8 "d.rdb") .empty).runAt ⟨0, 77⟩ s =
        (.ok fs', s') ∧ fs'.read (Str.utf8 "d.rdb") = some bytes ∧
      ∃ loaded, (loadFromFile bitText fs' (Str.utf8 "d.rdb")).runAt ⟨0, 77⟩ Store.empty =
          (.ok (.ok ()), loaded) ∧
        Dataset.Related Eq (s.live 0) (loaded.live 0) := by
  intro s
  obtain ⟨fs', s', bytes, hsave, hread, hload⟩ := load_save bitText bitText_roundTrips s
    reachable_volatileString .sorted (Str.utf8 "d.rdb") .empty ⟨0, 77⟩ (Nat.dvd_zero _)
    (fun key e he => Store.value_of_live volatileString_fits he) (by
      intro key e d he hd
      rw [volatileString_deadline he hd]
      decide)
  have hlen : (((saveToFile bitText .sorted (Str.utf8 "d.rdb") .empty).runAt ⟨0, 77⟩
      s).1.toOption.bind fun fs => (fs.read (Str.utf8 "d.rdb")).map List.length) = some 78 := by
    decide +kernel
  have hbytes : bytes.length = 78 := by
    rw [hsave] at hlen
    simpa [Except.toOption, hread] using hlen
  exact ⟨fs', s', bytes, hsave, hread, hload (by rw [hbytes]; decide)⟩

end FireRedis
