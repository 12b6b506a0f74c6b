import FireRedis.Keyspace.Crashes

/-!
# How much a crash can lose (persistence/manager.rs)

The manager counts logged requests and the time since its last save. The
autosave task looks at both in every round and saves when one of the save
conditions is met. As long as saves succeed, each condition bounds how many
writes of a certain age a crash can take away.

A save takes its snapshot and writes its file in one step and resets the counter in
another. A write that is counted in between is forgotten by the reset, and no
condition bounds it; what is promised is about runs in which none is.
-/

namespace FireRedis
open Std Simulation RdbSerializer

/-- Pairs of changes and seconds: `rdb_save_conditions`. -/
abbrev SaveConditions := List (UInt32 × UInt32)

def SaveConditions.default : SaveConditions := [(1, 900), (10, 300), (1000, 60)]

/-- A process with the autosave task, instants in nanoseconds. `failing`: its last
attempt to save broke. `finishing`: so many saves have written their file and not
yet reset the counter. -/
structure Autosaver where
  host : Host
  dirtyCounter : UInt64
  lastSave : ℕ
  lastRound : ℕ
  failing : Bool
  finishing : ℕ

namespace Autosaver

/-- `PersistenceManager::new`; the first round of an interval comes at once. -/
def new (host : Host) (t : ℕ) : Autosaver := ⟨host, 0, t, t, false, 0⟩

/-- A save may break after some bytes. A round saves only when it is due; a
shutdown saves in any case. -/
inductive Event where
  | request (turn : Turn)
  | evict (now : Reading)
  | round (now : Reading) (ord : IterOrder) (broken : Option ℕ)
  | save (now : Reading) (ord : IterOrder) (broken : Option ℕ)
  | finish (now : Reading)
  | restart (now : Reading) (ord : IterOrder) (info : Bytes)

def Event.now : Event → Reading
  | request turn => turn.now
  | evict now | round now _ _ | save now _ _ | finish now | restart now _ _ => now

variable (conditions : SaveConditions) (m : Autosaver)

/-- `elapsed().as_secs() as u32`. -/
def elapsed (t : ℕ) : UInt32 := UInt32.ofNat ((t - m.lastSave) / 1000000000)

def due (t : ℕ) : Bool :=
  conditions.any fun (changes, seconds) =>
    changes.toUInt64 ≤ m.dirtyCounter && seconds ≤ m.elapsed t

def recordWrite (frame : Value) : Autosaver :=
  if (logEntry frame).isSome then { m with dirtyCounter := m.dirtyCounter + 1 } else m

/-- `save`, up to the reset of the counter. -/
def attempted : Option ℕ → Autosaver
  | none => { m with failing := false, finishing := m.finishing + 1 }
  | some _ => { m with failing := true }

/-- The end of a `save` that has written its file. -/
def finished (t : ℕ) : Autosaver :=
  match m.finishing with
  | 0 => m
  | n + 1 => { m with dirtyCounter := 0, lastSave := t, finishing := n }

def attempt (now : Reading) (ord : IterOrder) : Option ℕ → Incident
  | none => .save now ord
  | some written => .brokenSave now ord written

/-- What the event means for the store and the disk. -/
def incident : Event → Option Incident
  | .request turn => some (.request turn)
  | .evict now => some (.evict now)
  | .round now ord broken =>
    if m.due conditions now.instant then some (attempt now ord broken) else none
  | .save now ord broken => some (attempt now ord broken)
  | .finish _ => none
  | .restart now ord info => some (.restart now ord info)

def counted : Event → Autosaver
  | .request turn => m.recordWrite turn.frame
  | .evict _ => m
  | .round now _ broken =>
    if m.due conditions now.instant then
      { m.attempted broken with lastRound := now.instant }
    else { m with lastRound := now.instant }
  | .save _ _ broken => m.attempted broken
  | .finish now => m.finished now.instant
  | .restart now _ _ => new m.host now.instant

def step (F : FloatText) (config : PersistenceConfig) (e : Event) : Option Notice × Autosaver :=
  let done := match m.incident conditions e with
    | some i => i.step F config m.host
    | none => (none, m.host)
  (done.1, { m.counted conditions e with host := done.2 })

/-- What is saved fits, and the counter is not about to wrap. -/
def Fits (F : FloatText) (epoch : ℕ) (e : Event) : Prop :=
  (∀ i, m.incident conditions e = some i → i.Fits F epoch m.host) ∧
    m.dirtyCounter.toNat + 1 < 2 ^ 64

/-- No write is counted while a save has yet to reset the counter. -/
def Undisturbed : Event → Prop
  | .request turn => m.finishing ≠ 0 → logEntry turn.frame = none
  | _ => True

end Autosaver

/-- The times of the writes that a crash takes away. -/
def Notice.unsaved (writes : List ℕ) : Notice → List ℕ
  | .answered e => if (logEntry e.1.frame).isSome then writes ++ [e.1.now.instant] else writes
  | .saved _ => []
  | .started _ _ => []

def unsavedWrites (log : List Notice) : List ℕ := log.foldl Notice.unsaved []

namespace Autosaver

variable {conditions : SaveConditions} {m : Autosaver} {t t' : ℕ} {writes : List ℕ}

/-- After a round that did not save, each condition missed its changes or its
seconds; the writes from `n` on came later. -/
def Rested (m : Autosaver) (writes : List ℕ) (c : UInt32 × UInt32) : Prop :=
  ∃ n, (n < max c.1.toNat 1 ∨ m.lastRound < m.lastSave + c.2.toNat * 1000000000) ∧
    ∀ x ∈ writes.drop n, m.lastRound ≤ x

structure Bounded (conditions : SaveConditions) (t : ℕ) (m : Autosaver)
    (writes : List ℕ) : Prop where
  counted : m.finishing = 0 → m.dirtyCounter.toNat = writes.length
  finishing : m.finishing ≠ 0 → writes = []
  saved : m.lastSave ≤ t
  checked : m.lastRound ≤ t
  since : ∀ x ∈ writes, m.lastSave ≤ x
  rested : m.failing = false → ∀ c ∈ conditions, Rested m writes c

theorem rested_of_saved (m : Autosaver) (c : UInt32 × UInt32) : Rested m [] c :=
  ⟨0, Or.inl (by omega), by simp⟩

theorem bounded_new (conditions : SaveConditions) (host : Host) (t : ℕ) :
    Bounded conditions t (new host t) [] :=
  ⟨fun _ => rfl, fun h => absurd rfl h, Nat.le_refl t, Nat.le_refl t, by simp,
    fun _ c _ => rested_of_saved _ c⟩

theorem Bounded.later (h : Bounded conditions t m writes) (ht : t ≤ t') :
    Bounded conditions t' m writes :=
  ⟨h.counted, h.finishing, Nat.le_trans h.saved ht, Nat.le_trans h.checked ht, h.since, h.rested⟩

/-- The host is not looked at. -/
theorem Bounded.host (h : Bounded conditions t m writes) (host : Host) :
    Bounded conditions t { m with host := host } writes :=
  ⟨h.counted, h.finishing, h.saved, h.checked, h.since, h.rested⟩

theorem Bounded.written (h : Bounded conditions t m writes) (hquiet : m.finishing = 0)
    (hwrap : m.dirtyCounter.toNat + 1 < 2 ^ 64) :
    Bounded conditions t { m with dirtyCounter := m.dirtyCounter + 1 } (writes ++ [t]) where
  counted _ := by
    rw [UInt64.toNat_add, UInt64.toNat_one, Nat.mod_eq_of_lt hwrap, h.counted hquiet,
      List.length_append]
    rfl
  finishing hbusy := absurd hquiet hbusy
  saved := h.saved
  checked := h.checked
  since x hx := by
    rcases List.mem_append.mp hx with hx | hx
    · exact h.since x hx
    · rw [List.mem_singleton.mp hx]
      exact h.saved
  rested hok c hc := by
    obtain ⟨n, hn, hlater⟩ := h.rested hok c hc
    refine ⟨n, hn, fun x hx => ?_⟩
    rw [List.drop_append] at hx
    rcases List.mem_append.mp hx with hx | hx
    · exact hlater x hx
    · rw [List.mem_singleton.mp (List.mem_of_mem_drop hx)]
      exact h.checked

theorem Bounded.attempted (h : Bounded conditions t m writes) (broken : Option ℕ) :
    Bounded conditions t (m.attempted broken) (if broken = none then [] else writes) := by
  cases broken with
  | none =>
    exact ⟨fun hzero => absurd hzero (Nat.succ_ne_zero _), fun _ => rfl, h.saved, h.checked,
      by simp, fun _ c _ => rested_of_saved _ c⟩
  | some n =>
    exact ⟨h.counted, h.finishing, h.saved, h.checked, h.since, fun hok => by cases hok⟩

/-- The reset forgets nothing where nothing came in between. -/
theorem Bounded.finished (h : Bounded conditions t m writes) :
    Bounded conditions t (m.finished t) writes := by
  rw [Autosaver.finished]
  cases hn : m.finishing with
  | zero => exact h
  | succ n =>
    have hnone : writes = [] := h.finishing (by rw [hn]; exact Nat.succ_ne_zero n)
    subst hnone
    exact ⟨fun _ => rfl, fun _ => rfl, Nat.le_refl t, h.checked, by simp,
      fun _ c _ => rested_of_saved _ c⟩

/-- The seconds of the timer, before they outgrow 32 bits. -/
theorem elapsed_lt (ht : t < 2 ^ 32 * 1000000000) {seconds : UInt32} (h : ¬ seconds ≤ m.elapsed t) :
    t < m.lastSave + seconds.toNat * 1000000000 := by
  have hlt : (m.elapsed t).toNat < seconds.toNat := UInt32.lt_iff_toNat_lt.mp (UInt32.not_le.mp h)
  have hsmall : (t - m.lastSave) / 1000000000 < 2 ^ 32 := by omega
  rw [elapsed, UInt32.toNat_ofNat', Nat.mod_eq_of_lt hsmall] at hlt
  omega

theorem Bounded.notDue (h : Bounded conditions t m writes) (ht : t < 2 ^ 32 * 1000000000)
    (hdue : m.due conditions t = false) :
    Bounded conditions t { m with lastRound := t } writes where
  counted := h.counted
  finishing := h.finishing
  saved := h.saved
  checked := Nat.le_refl t
  since := h.since
  rested _ c hc := by
    by_cases hbusy : m.finishing ≠ 0
    · rw [h.finishing hbusy]
      exact rested_of_saved _ c
    have hcounted := h.counted (not_not.mp hbusy)
    refine ⟨writes.length, ?_, by simp⟩
    have hcond := List.any_eq_false.mp hdue c hc
    rw [Bool.and_eq_true, decide_eq_true_iff, decide_eq_true_iff, not_and_or] at hcond
    rcases hcond with hchanges | hseconds
    · have hlt := UInt64.lt_iff_toNat_lt.mp (UInt64.not_le.mp hchanges)
      rw [UInt32.toNat_toUInt64, hcounted] at hlt
      exact Or.inl (by omega)
    · exact Or.inr (elapsed_lt ht hseconds)

/-- Few unsaved writes are old. -/
theorem Bounded.few (h : Bounded conditions t m writes) (hok : m.failing = false)
    {c : UInt32 × UInt32} (hc : c ∈ conditions) {g u : ℕ} (hu : u ≤ m.lastRound + g) :
    (writes.filter fun x => x + c.2.toNat * 1000000000 + g < u).length < max c.1.toNat 1 := by
  obtain ⟨n, hn, hlater⟩ := h.rested hok c hc
  have hold : (writes.drop n).filter (fun x => x + c.2.toNat * 1000000000 + g < u) = [] := by
    apply List.filter_eq_nil_iff.mpr
    intro x hx
    have hle : m.lastRound ≤ x := hlater x hx
    rw [decide_eq_true_iff]
    omega
  rw [← List.take_append_drop n writes, List.filter_append, hold, List.append_nil]
  rcases hn with hn | hn
  · have hlen := List.length_filter_le (fun x => decide (x + c.2.toNat * 1000000000 + g < u))
      (writes.take n)
    rw [List.length_take] at hlen
    omega
  · have hnone : (writes.take n).filter (fun x => x + c.2.toNat * 1000000000 + g < u) = [] := by
      apply List.filter_eq_nil_iff.mpr
      intro x hx
      have hle : m.lastSave ≤ x := h.since x (List.mem_of_mem_take hx)
      rw [decide_eq_true_iff]
      omega
    rw [hnone]
    exact Nat.lt_of_lt_of_le Nat.zero_lt_one (Nat.le_max_right _ _)

/-! ### Runs -/

section Steps

variable {F : FloatText} {epoch : ℕ} {config : PersistenceConfig} {e : Event} {D : Durable}

/-- The writes that are unsaved after the event. -/
def unsavedAfter (conditions : SaveConditions) (m : Autosaver) (writes : List ℕ) : Event → List ℕ
  | .request turn => if (logEntry turn.frame).isSome then writes ++ [turn.now.instant] else writes
  | .evict _ => writes
  | .round now _ broken => if m.due conditions now.instant ∧ broken = none then [] else writes
  | .save _ _ broken => if broken = none then [] else writes
  | .finish _ => writes
  | .restart _ _ _ => []

theorem counted_bounded (h : Bounded conditions t m writes) (ht : t ≤ e.now.instant)
    (hup : e.now.instant < 2 ^ 32 * 1000000000) (hwrap : m.dirtyCounter.toNat + 1 < 2 ^ 64)
    (hquiet : m.Undisturbed e) : Bounded conditions e.now.instant (m.counted conditions e)
      (unsavedAfter conditions m writes e) := by
  have hlater := h.later ht
  cases e with
  | request turn =>
    rw [counted, unsavedAfter, recordWrite]
    split
    · rename_i hlogged
      have hidle : m.finishing = 0 := by
        by_contra hbusy
        rw [hquiet hbusy] at hlogged
        cases hlogged
      exact hlater.written hidle hwrap
    · exact hlater
  | evict now => exact hlater
  | round now ord broken =>
    rw [counted, unsavedAfter]
    cases hdue : m.due conditions now.instant with
    | false =>
      rw [if_neg Bool.false_ne_true, if_neg fun h => Bool.false_ne_true h.1]
      exact hlater.notDue hup hdue
    | true =>
      rw [if_pos rfl]
      have hattempted := hlater.attempted broken
      cases broken with
      | none =>
        rw [if_pos ⟨rfl, rfl⟩]
        exact ⟨hattempted.counted, hattempted.finishing, hattempted.saved, Nat.le_refl _,
          hattempted.since, fun _ c _ => rested_of_saved _ c⟩
      | some n =>
        rw [if_neg fun h => Option.some_ne_none n h.2]
        exact ⟨hlater.counted, hlater.finishing, hlater.saved, Nat.le_refl _, hlater.since,
          fun hok => by cases hok⟩
  | save now ord broken => exact hlater.attempted broken
  | finish now => exact hlater.finished
  | restart now ord info => exact bounded_new conditions m.host now.instant

theorem incident_now {i : Incident} (h : m.incident conditions e = some i) : i.now = e.now := by
  have hattempt : ∀ (now : Reading) ord broken, (attempt now ord broken).now = now := by
    intro now ord broken
    cases broken <;> rfl
  cases e with
  | round now ord broken =>
    rw [incident] at h
    split at h
    · rw [← Option.some.inj h]
      exact hattempt now ord broken
    · cases h
  | save now ord broken =>
    rw [← Option.some.inj h]
    exact hattempt now ord broken
  | finish now => cases h
  | _ =>
    rw [← Option.some.inj h]
    rfl

theorem foldl_unsaved (F : FloatText) (config : PersistenceConfig) (m : Autosaver)
    (writes : List ℕ) (e : Event) :
    (m.step conditions F config e).1.toList.foldl Notice.unsaved writes =
      unsavedAfter conditions m writes e := by
  have hattempt : ∀ (now : Reading) ord broken,
      ((attempt now ord broken).step F config m.host).1.toList.foldl Notice.unsaved writes =
        if broken = none then [] else writes := by
    intro now ord broken
    cases broken <;> rfl
  cases e with
  | round now ord broken =>
    rw [step, incident, unsavedAfter]
    cases hdue : m.due conditions now.instant with
    | false =>
      simp only [Bool.false_eq_true, if_false, false_and]
      rfl
    | true =>
      simp only [if_true, true_and]
      exact hattempt now ord broken
  | save now ord broken => exact hattempt now ord broken
  | _ => rfl

theorem event_seen (hF : F.RoundTrips) (hrdb : config.rdbEnabled = true)
    (haof : config.aofEnabled = false)
    (htemp : withExtension config.rdbFile "tmp" ≠ config.rdbFile)
    (hup : e.now.instant < 2 ^ 32 * 1000000000) (hclock : e.now.InStep epoch)
    (hfits : m.Fits conditions F epoch e) (hquiet : m.Undisturbed e)
    (hkept : Kept F epoch config.rdbFile t m.host D)
    (hbounded : Bounded conditions t m writes) (ht : t ≤ e.now.instant) :
    ∃ x, Allows (fun x n y => Durable.Sees F x.1 n y.1 ∧ y.2 = Notice.unsaved x.2 n) (D, writes)
        (m.step conditions F config e).1.toList x ∧
      Kept F epoch config.rdbFile e.now.instant (m.step conditions F config e).2.host x.1 ∧
      Bounded conditions e.now.instant (m.step conditions F config e).2 x.2 := by
  obtain ⟨D', hallows, hkept'⟩ : ∃ D',
      Allows (Durable.Sees F) D (m.step conditions F config e).1.toList D' ∧
        Kept F epoch config.rdbFile e.now.instant (m.step conditions F config e).2.host D' := by
    rw [step]
    cases hi : m.incident conditions e with
    | none => exact ⟨D, .nil D, hkept.later ht⟩
    | some i =>
      have hnow := incident_now hi
      have hinstant : i.instant = e.now.instant := by
        rw [← hnow]
        cases i <;> rfl
      rw [← hinstant] at ht ⊢
      exact incident_seen hF hrdb haof htemp i (hfits.1 i hi) hkept ht (hnow ▸ hclock)
  refine ⟨_, hallows.withFold writes, hkept', ?_⟩
  rw [foldl_unsaved F config m writes e]
  exact (counted_bounded hbounded ht hup hfits.2 hquiet).host _

end Steps

end Autosaver

open Autosaver

/-- Saves that do not break bound what a crash takes away, where no write is counted
between the file and the reset: by the next round, no condition has let its number
of unsaved writes grow older than its seconds and the time between rounds. What a
start gives back is what the keyspace was at the last save. The clocks are in step,
never go back and stay below 2^32 seconds. -/
theorem autosave_bounds_loss (F : FloatText) (hF : F.RoundTrips) (epoch : ℕ)
    (config : PersistenceConfig) (hrdb : config.rdbEnabled = true)
    (haof : config.aofEnabled = false)
    (htemp : withExtension config.rdbFile "tmp" ≠ config.rdbFile) (fs : FileSystem)
    (hfirst : fs.names config.rdbFile = none) (conditions : SaveConditions)
    (es : List Autosaver.Event)
    (hmono : es.Pairwise fun e e' => e.now.instant ≤ e'.now.instant)
    (hclock : ∀ e ∈ es, e.now.InStep epoch)
    (hup : ∀ e ∈ es, e.now.instant < 2 ^ 32 * 1000000000)
    (hfits : Along (fun m e => m.step conditions F config e)
      (fun m e => m.Fits conditions F epoch e ∧ m.Undisturbed e) es (new ⟨Store.empty, fs⟩ 0)) :
    let run := events (fun m e => m.step conditions F config e) es (new ⟨Store.empty, fs⟩ 0)
    (∃ D, Allows (Durable.Sees F) ⟨fun _ => none, fun _ => none⟩ run.1 D) ∧
      (run.2.failing = false → ∀ c ∈ conditions, ∀ g u : ℕ, u ≤ run.2.lastRound + g →
        ((unsavedWrites run.1).filter fun x => x + c.2.toNat * 1000000000 + g < u).length <
          max c.1.toNat 1) := by
  intro run
  have hstep : ∀ e ∈ es, ∀ (t : Instant) (m : Autosaver) (x : Durable × List ℕ),
      m.Fits conditions F epoch e ∧ m.Undisturbed e →
      Kept F epoch config.rdbFile t m.host x.1 ∧ Bounded conditions t m x.2 →
      t ≤ e.now.instant → ∃ y,
        Allows (fun x n y => Durable.Sees F x.1 n y.1 ∧ y.2 = Notice.unsaved x.2 n) x
          (m.step conditions F config e).1.toList y ∧
        Kept F epoch config.rdbFile e.now.instant (m.step conditions F config e).2.host y.1 ∧
        Bounded conditions e.now.instant (m.step conditions F config e).2 y.2 :=
    fun e he t m x hok hR ht =>
      event_seen hF hrdb haof htemp (hup e he) (hclock e he) hok.1 hok.2 hR.1 hR.2 ht
  have hstart : Kept F epoch config.rdbFile 0 (new ⟨Store.empty, fs⟩ 0).host
      (⟨fun _ => none, fun _ => none⟩, ([] : List ℕ)).1 ∧
        Bounded conditions 0 (new ⟨Store.empty, fs⟩ 0) [] :=
    ⟨kept_start F epoch hfirst, bounded_new conditions ⟨Store.empty, fs⟩ 0⟩
  obtain ⟨⟨D, writes⟩, hallows, u, -, -, hbounded⟩ :=
    allows_along hstep hmono (fun e _ => Nat.zero_le e.now.instant) hfits hstart
  obtain ⟨hsees, hwrites⟩ := hallows.both
  refine ⟨⟨D, hsees⟩, fun hok c hc g u hu => ?_⟩
  have hfew := hbounded.few hok hc hu
  rw [hwrites] at hfew
  exact hfew

/-- A write, a round a quarter of an hour later that saves, and another write. -/
def quarter : List Autosaver.Event :=
  [.request ⟨commandValue "SET" [Str.utf8 "k", Str.utf8 "v"], .sorted, [], ⟨1000000000, 1000⟩⟩,
    .round ⟨901000000000, 901000⟩ .sorted none,
    .finish ⟨901500000000, 901500⟩,
    .request ⟨commandValue "SET" [Str.utf8 "k", Str.utf8 "w"], .sorted, [],
      ⟨902000000000, 902000⟩⟩]

theorem autosave_bounds_loss_quarter :
    let run := events (fun m e => Autosaver.step .default m bitText .default e) quarter
      (new ⟨Store.empty, .empty⟩ 0)
    run.2.failing = false ∧ unsavedWrites run.1 = [902000000000] ∧
      ((unsavedWrites run.1).filter
        fun x => x + 900 * 1000000000 + 1000000000 < 902000000000).length < 1 := by
  intro run
  have hfits : Along (fun m e => Autosaver.step .default m bitText .default e)
      (fun m e => m.Fits .default bitText 0 e ∧ m.Undisturbed e) quarter
      (new ⟨Store.empty, .empty⟩ 0) := by
    refine ⟨⟨⟨fun i hi => ?_, by decide⟩, fun hbusy => absurd rfl hbusy⟩,
      ⟨⟨fun i hi => ?_, by decide +kernel⟩, trivial⟩,
      ⟨⟨fun i hi => (by cases hi), by decide +kernel⟩, trivial⟩,
      ⟨⟨fun i hi => ?_, by decide +kernel⟩, fun hbusy => absurd rfl hbusy⟩, trivial⟩
    · obtain rfl := Option.some.inj hi
      trivial
    · obtain rfl : Incident.save ⟨901000000000, 901000⟩ .sorted = i := Option.some.inj hi
      refine ⟨savable_string (d := none) (Str.lit "k") (Str.utf8 "v") 901000000000
        fun x hx => (by cases hx), ?_⟩
      exact Nat.le_trans (by decide +kernel : _ ≤ 100) (by decide)
    · obtain rfl := Option.some.inj hi
      trivial
  obtain ⟨-, hbound⟩ := autosave_bounds_loss bitText bitText_roundTrips 0 .default rfl rfl
    (by decide) .empty rfl .default quarter (by decide +kernel) (fun e he => by
      simp only [quarter, List.mem_cons, List.not_mem_nil, or_false] at he
      rcases he with rfl | rfl | rfl | rfl <;> rfl) (by decide +kernel) hfits
  exact ⟨rfl, rfl, hbound rfl (1, 900) (List.mem_cons_self ..) 1000000000 902000000000
    (by decide +kernel)⟩

end FireRedis
