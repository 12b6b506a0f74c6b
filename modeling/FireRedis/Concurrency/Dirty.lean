import FireRedis.Base.Runs
import FireRedis.Server

/-!
# The dirty counter

A connection counts a write before it executes it (server.rs,
`handle_connection`). A save takes its snapshot, writes the file and then sets
the counter to zero (persistence/manager.rs, `save`). Where a save resets the
counter only when its snapshot has every write that has been counted, the counter
never falls below the writes that no successful save has.
-/

namespace FireRedis
open System

/-- The request is counted, and it is a command that is executed. -/
def isWrite (F : FloatText) : Value → Bool
  | .array (some args) => (logEntry (.array (some args))).isSome && (tryFrom F args).isOk
  | _ => false

inductive Writer where
  | idle
  | taken (frame : Value)

/-- Where a save is. The number says how many writes its snapshot has. -/
inductive Saver where
  | idle
  | snapshot (writes : ℕ)
  | written (writes : ℕ)

/-- `executed` counts the writes executed so far, `saved` those of them that
were executed before the snapshot of the last successful save. -/
structure Dirty (ι κ : Type) where
  store : Store
  dirtyCounter : UInt64
  conns : ι → Writer
  savers : κ → Saver
  executed : ℕ
  saved : ℕ

namespace Dirty

inductive Action (ι κ : Type) where
  | take (c : ι) (frame : Value)
  | execute (c : ι) (ord : IterOrder) (info : Bytes) (now : Reading)
  | snapshot (k : κ) (now : Reading)
  | write (k : κ)
  | fail (k : κ)
  | reset (k : κ)

variable {ι κ : Type} [DecidableEq ι] [DecidableEq κ]

section Step

variable (F : FloatText) (m : Dirty ι κ)

/-- `record_write`, for a request that is logged. The counter wraps around. -/
def recordWrite (frame : Value) : UInt64 :=
  if (logEntry frame).isSome then m.dirtyCounter + 1 else m.dirtyCounter

def setConn (c : ι) (conn : Writer) : Dirty ι κ :=
  { m with conns := Function.update m.conns c conn }

def setSaver (k : κ) (saver : Saver) : Dirty ι κ :=
  { m with savers := Function.update m.savers k saver }

def step : Action ι κ → Option (Dirty ι κ)
  | .take c frame =>
    match m.conns c with
    | .idle => some ({ m with dirtyCounter := m.recordWrite frame }.setConn c (.taken frame))
    | _ => none
  | .execute c ord info now =>
    match m.conns c with
    | .taken frame =>
      some ({ m with
        store := ((respond F ord info frame).runAt now m.store).2
        executed := m.executed + (isWrite F frame).toNat }.setConn c .idle)
    | _ => none
  | .snapshot k now =>
    match m.savers k with
    | .idle =>
      some ({ m with store := (Store.snapshot.runAt now m.store).2 }.setSaver k
        (.snapshot m.executed))
    | _ => none
  | .write k =>
    match m.savers k with
    | .snapshot writes => some (m.setSaver k (.written writes))
    | _ => none
  | .fail k =>
    match m.savers k with
    | .snapshot _ => some (m.setSaver k .idle)
    | _ => none
  | .reset k =>
    match m.savers k with
    | .written writes => some ({ m with dirtyCounter := 0, saved := writes }.setSaver k .idle)
    | _ => none

/-! ### What a step does -/

variable {F m} {m' : Dirty ι κ} {c : ι} {k : κ}

theorem step_take {frame : Value} (h : step F m (.take c frame) = some m') :
    m.conns c = .idle ∧
      m' = { m with dirtyCounter := m.recordWrite frame }.setConn c (.taken frame) := by
  rw [step] at h
  split at h
  · exact ⟨‹_›, (Option.some.inj h).symm⟩
  · cases h

theorem step_execute {ord : IterOrder} {info : Bytes} {now : Reading}
    (h : step F m (.execute c ord info now) = some m') : ∃ frame, m.conns c = .taken frame ∧
      m' = { m with
        store := ((respond F ord info frame).runAt now m.store).2
        executed := m.executed + (isWrite F frame).toNat }.setConn c .idle := by
  rw [step] at h
  split at h
  · exact ⟨_, ‹_›, (Option.some.inj h).symm⟩
  · cases h

theorem step_snapshot {now : Reading} (h : step F m (.snapshot k now) = some m') :
    m.savers k = .idle ∧ m' = { m with store := (Store.snapshot.runAt now m.store).2 }.setSaver k
      (.snapshot m.executed) := by
  rw [step] at h
  split at h
  · exact ⟨‹_›, (Option.some.inj h).symm⟩
  · cases h

theorem step_write (h : step F m (.write k) = some m') :
    ∃ writes, m.savers k = .snapshot writes ∧ m' = m.setSaver k (.written writes) := by
  rw [step] at h
  split at h
  · exact ⟨_, ‹_›, (Option.some.inj h).symm⟩
  · cases h

theorem step_fail (h : step F m (.fail k) = some m') :
    ∃ writes, m.savers k = .snapshot writes ∧ m' = m.setSaver k .idle := by
  rw [step] at h
  split at h
  · exact ⟨_, ‹_›, (Option.some.inj h).symm⟩
  · cases h

theorem step_reset (h : step F m (.reset k) = some m') : ∃ writes, m.savers k = .written writes ∧
    m' = { m with dirtyCounter := 0, saved := writes }.setSaver k .idle := by
  rw [step] at h
  split at h
  · exact ⟨_, ‹_›, (Option.some.inj h).symm⟩
  · cases h

end Step

def start (s : Store) : Dirty ι κ := ⟨s, 0, fun _ => .idle, fun _ => .idle, 0, 0⟩

/-- A save resets the counter only when no write was executed since its snapshot
and none is counted and still to be executed; the counter is not about to wrap. -/
def Remembers (F : FloatText) (m : Dirty ι κ) : Action ι κ → Prop
  | .take _ frame => (logEntry frame).isSome → m.dirtyCounter.toNat + 1 < 2 ^ 64
  | .reset k => (∀ writes, m.savers k = .written writes → m.executed = writes) ∧
    ∀ c frame, m.conns c = .taken frame → isWrite F frame = false
  | _ => True

/-- The writes executed and those of the connections in `busy`, which are still to
be executed, are saved or counted. -/
structure Inv (F : FloatText) (m : Dirty ι κ) (busy : Finset ι) : Prop where
  waiting : ∀ c, c ∈ busy ↔ ∃ frame, m.conns c = .taken frame ∧ isWrite F frame = true
  counted : m.executed + busy.card ≤ m.saved + m.dirtyCounter.toNat

section Run

variable {F : FloatText} {m m' : Dirty ι κ} {busy : Finset ι} {c : ι} {k : κ}

theorem isSome_of_isWrite {frame : Value} (h : isWrite F frame = true) :
    (logEntry frame).isSome := by
  unfold isWrite at h
  split at h
  · exact (Bool.and_eq_true_iff.mp h).1
  · cases h

omit [DecidableEq ι] [DecidableEq κ] in
theorem Inv.quiet (hm : m.Inv F busy) (hconns : m'.conns = m.conns)
    (hcounted : m'.executed + busy.card ≤ m'.saved + m'.dirtyCounter.toNat) : m'.Inv F busy :=
  ⟨fun c => by rw [hconns]; exact hm.waiting c, hcounted⟩

omit [DecidableEq ι] [DecidableEq κ] in
theorem recordWrite_toNat {frame : Value} (hguard : Remembers F m (.take c frame : Action ι κ)) :
    m.dirtyCounter.toNat + (isWrite F frame).toNat ≤ (m.recordWrite frame).toNat := by
  rw [recordWrite]
  split
  · rename_i hlogged
    have hbound := hguard hlogged
    have hone := Bool.toNat_le (isWrite F frame)
    rw [UInt64.toNat_add, UInt64.toNat_one, Nat.mod_eq_of_lt hbound]
    omega
  · rename_i hlogged
    have hnot : isWrite F frame = false := by
      by_contra hwrite
      exact hlogged (isSome_of_isWrite (by simpa using hwrite))
    rw [hnot]
    exact le_rfl

omit [DecidableEq κ] in
theorem Inv.taken (hm : m.Inv F busy) (frame : Value) (hidle : m.conns c = .idle) :
    ∃ busy' : Finset ι, (∀ c', c' ∈ busy' ↔ ∃ frame',
        (m.setConn c (.taken frame)).conns c' = .taken frame' ∧ isWrite F frame' = true) ∧
      busy'.card = busy.card + (isWrite F frame).toNat := by
  have hc : c ∉ busy := fun hc => by
    obtain ⟨frame', htaken, -⟩ := (hm.waiting c).mp hc
    rw [hidle] at htaken
    cases htaken
  cases hwrite : isWrite F frame with
  | true =>
    refine ⟨insert c busy, ?_, Finset.card_insert_of_notMem hc⟩
    apply (Function.forall_update_iff m.conns fun c' conn => c' ∈ insert c busy ↔
      ∃ frame', conn = .taken frame' ∧ isWrite F frame' = true).mpr
    refine ⟨iff_of_true (Finset.mem_insert_self c busy) ⟨frame, rfl, hwrite⟩, fun c' hne => ?_⟩
    rw [Finset.mem_insert, hm.waiting c', or_iff_right hne]
  | false =>
    refine ⟨busy, ?_, rfl⟩
    apply (Function.forall_update_iff m.conns fun c' conn => c' ∈ busy ↔
      ∃ frame', conn = .taken frame' ∧ isWrite F frame' = true).mpr
    refine ⟨iff_of_false hc ?_, fun c' _ => hm.waiting c'⟩
    rintro ⟨frame', heq, hframe⟩
    cases heq
    rw [hwrite] at hframe
    cases hframe

theorem take_inv {frame : Value} (hm : m.Inv F busy) (hguard : Remembers F m (.take c frame))
    (h : step F m (.take c frame) = some m') : ∃ busy', m'.Inv F busy' := by
  obtain ⟨hidle, rfl⟩ := step_take h
  obtain ⟨busy', hwaiting, hcard⟩ := hm.taken frame hidle
  refine ⟨busy', hwaiting, ?_⟩
  have hcounted := hm.counted
  have hrecord := recordWrite_toNat hguard
  show m.executed + busy'.card ≤ m.saved + (m.recordWrite frame).toNat
  omega

theorem execute_inv {ord : IterOrder} {info : Bytes} {now : Reading} (hm : m.Inv F busy)
    (h : step F m (.execute c ord info now) = some m') : ∃ busy', m'.Inv F busy' := by
  obtain ⟨frame, htaken, rfl⟩ := step_execute h
  have hc : c ∈ busy ↔ isWrite F frame = true := by
    rw [hm.waiting c, htaken]
    refine ⟨fun ⟨frame', heq, hwrite⟩ => ?_, fun hwrite => ⟨frame, rfl, hwrite⟩⟩
    cases heq
    exact hwrite
  refine ⟨busy.erase c, ?_, ?_⟩
  · apply (Function.forall_update_iff m.conns fun c' conn => c' ∈ busy.erase c ↔
      ∃ frame', conn = .taken frame' ∧ isWrite F frame' = true).mpr
    refine ⟨iff_of_false (Finset.notMem_erase c busy) nofun, fun c' hne => ?_⟩
    rw [Finset.mem_erase, hm.waiting c', and_iff_right hne]
  · have hcounted := hm.counted
    show m.executed + (isWrite F frame).toNat + (busy.erase c).card ≤ m.saved + m.dirtyCounter.toNat
    cases hwrite : isWrite F frame with
    | true =>
      have hcard := Finset.card_erase_add_one (hc.mpr hwrite)
      rw [Bool.toNat_true]
      omega
    | false =>
      have hnot : c ∉ busy := fun hmem => by
        rw [hc, hwrite] at hmem
        cases hmem
      rw [Finset.erase_eq_of_notMem hnot, Bool.toNat_false]
      exact hcounted

theorem reset_inv (hm : m.Inv F busy) (hguard : Remembers F m (.reset k))
    (h : step F m (.reset k) = some m') : m'.Inv F busy := by
  obtain ⟨writes, hwritten, rfl⟩ := step_reset h
  obtain ⟨hnone, hidle⟩ := hguard
  have hempty : busy = ∅ := by
    apply Finset.eq_empty_of_forall_notMem
    intro c hc
    obtain ⟨frame, htaken, hwrite⟩ := (hm.waiting c).mp hc
    rw [hidle c frame htaken] at hwrite
    cases hwrite
  refine hm.quiet rfl ?_
  show m.executed + busy.card ≤ writes + 0
  rw [hempty, Finset.card_empty, hnone writes hwritten]

theorem step_inv {a : Action ι κ} (hm : m.Inv F busy) (hguard : Remembers F m a)
    (h : step F m a = some m') : ∃ busy', m'.Inv F busy' := by
  cases a with
  | take c frame => exact take_inv hm hguard h
  | execute c ord info now => exact execute_inv hm h
  | snapshot k now =>
    obtain ⟨-, rfl⟩ := step_snapshot h
    exact ⟨busy, hm.quiet rfl hm.counted⟩
  | write k =>
    obtain ⟨writes, -, rfl⟩ := step_write h
    exact ⟨busy, hm.quiet rfl hm.counted⟩
  | fail k =>
    obtain ⟨writes, -, rfl⟩ := step_fail h
    exact ⟨busy, hm.quiet rfl hm.counted⟩
  | reset k => exact ⟨busy, reset_inv hm hguard h⟩

end Run

end Dirty

open Dirty

/-- In every state the counter is at least the number of writes executed since the
snapshot of the last successful save. -/
theorem dirty_counter_remembers {ι κ : Type} [DecidableEq ι] [DecidableEq κ] (F : FloatText)
    (s : Store) (m : Dirty ι κ) (h : Runs (step F) (Remembers F) (start s) m) :
    m.executed ≤ m.saved + m.dirtyCounter.toNat := by
  have hstart : (start s : Dirty ι κ).Inv F ∅ := by
    refine ⟨fun c => iff_of_false (Finset.notMem_empty c) ?_, le_rfl⟩
    rintro ⟨frame, htaken, -⟩
    cases htaken
  obtain ⟨busy, hm⟩ : ∃ busy, m.Inv F busy := by
    refine runs_induction (I := fun m => ∃ busy, m.Inv F busy) ⟨∅, hstart⟩ ?_ h
    intro m a m' hm hguard hstep
    obtain ⟨busy, hm⟩ := hm
    exact step_inv hm hguard hstep
  have hcounted := hm.counted
  omega

/-! ### One connection and one save -/

namespace Dirty

def setRequest : Value := commandValue "SET" [Str.utf8 "k", Str.utf8 "v"]

def served : List (Action Unit Unit) :=
  [.take () setRequest, .execute () .sorted [] ⟨0, 0⟩]

def reset : List (Action Unit Unit) := [.write (), .reset ()]

/-- The write is executed before the snapshot. -/
def before : List (Action Unit Unit) := served ++ .snapshot () ⟨0, 0⟩ :: reset

/-- The write is executed between the snapshot and the reset of the counter. -/
def between : List (Action Unit Unit) := .snapshot () ⟨0, 0⟩ :: served ++ reset

end Dirty

theorem dirty_counter_remembers_before : ∃ m : Dirty Unit Unit,
    Runs (step noFloats) (Remembers noFloats) (start .empty) m ∧ m.executed = 1 ∧ m.saved = 1 ∧
    m.executed ≤ m.saved + m.dirtyCounter.toNat := by
  have hallowed : Allowed (step noFloats) (Remembers noFloats) before (start .empty) := by
    refine ⟨fun _ => by decide, trivial, trivial, trivial,
      ⟨fun writes h => ?_, fun c frame h => ?_⟩, trivial⟩
    · cases h
      rfl
    · cases h
  have hruns := runs_follow hallowed rfl
  exact ⟨_, hruns, rfl, rfl, dirty_counter_remembers noFloats .empty _ hruns⟩

theorem dirty_counter_forgets : ∃ m : Dirty Unit Unit,
    Runs (step noFloats) (fun _ _ => True) (start .empty) m ∧ m.conns () = .idle ∧
    m.savers () = .idle ∧ m.executed = 1 ∧ m.saved = 0 ∧ m.dirtyCounter = 0 := by
  have hallowed : Allowed (step noFloats) (fun _ _ => True) between (start .empty) :=
    allowed_all _ _
  have hruns := runs_follow hallowed rfl
  exact ⟨_, hruns, rfl, rfl, rfl, rfl, rfl⟩

end FireRedis
