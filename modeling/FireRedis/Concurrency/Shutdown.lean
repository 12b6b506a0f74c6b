import FireRedis.Concurrency.Machine

/-!
# Shutdown while the AOF processor runs

`shutdown` takes the lock of the writer, syncs the file, releases the lock and
saves the snapshot. The processor and the task that syncs every second take the
same lock; the commands that are still on the channel are nobody's concern. When
it returns, the file has the commands sent before the call just where the
processor has written as many as were on their way, in the meantime.
-/

namespace FireRedis
open System

/-- Where `shutdown` is. -/
inductive ClosePhase where
  | running
  | called
  | locked
  | synced
  | returned (ok : Bool)

structure Closing (ι : Type) where
  machine : Machine ι
  phase : ClosePhase

/-- The steps of the machine and those of `shutdown`. A sync or a save may fail. -/
inductive CloseAction (ι : Type) where
  | machine (a : Action ι)
  | call
  | lock
  | fsync (ok : Bool)
  | save (ok : Bool)

namespace Closing

variable {ι : Type} [DecidableEq ι] (F : FloatText) (policy : AofFsyncPolicy) (w : AofWriter)

/-- The steps that take the lock of the writer. -/
def TakesLock : Action ι → Bool
  | .write | .fsync => true
  | _ => false

/-- The processor keeps the lock between its write and its sync. -/
def held : Hand → Bool
  | .written _ => true
  | _ => false

def step (m : Closing ι) : CloseAction ι → Option (Closing ι)
  | .machine a =>
    match m.phase, TakesLock a with
    | .locked, true => none
    | _, _ => (m.machine.step F policy w a).map fun m' => { m with machine := m' }
  | .call =>
    match m.phase with
    | .running => some { m with phase := .called }
    | _ => none
  | .lock =>
    match m.phase, held m.machine.hand with
    | .called, false => some { m with phase := .locked }
    | _, _ => none
  -- A failure is only reported.
  | .fsync ok =>
    match m.phase with
    | .locked =>
      let synced := if ok then m.machine.fs.contents w.file else m.machine.synced
      some ⟨{ m.machine with synced := synced }, .synced⟩
    | _ => none
  | .save ok =>
    match m.phase with
    | .synced => some { m with phase := .returned ok }
    | _ => none

/-- The machine that opens a log which may hold something already. -/
def start (path : PathBuf) (fs : FileSystem) : Closing ι := ⟨Machine.start path fs, .running⟩

/-- The commands sent that are not in the file: the one received and those on the channel. -/
def pending (m : Closing ι) : List Value := m.machine.hand.unwritten ++ m.machine.channel

/-- After what it held at the start, the file has the commands sent but for the
pending ones. -/
structure Inv (path : PathBuf) (before : Bytes) (m : Closing ι) : Prop where
  name : m.machine.fs.names path = some w.file
  written : ∃ written, m.machine.logged = written ++ m.pending ∧
    m.machine.fs.contents w.file = before ++ written.flatMap encode

/-- The processor writes a command to the file. -/
def writesCommand : CloseAction ι → Bool
  | .machine .write => true
  | _ => false

section Run

variable {F policy w} {path : PathBuf} {before : Bytes} {m m' : Closing ι}

theorem step_machine {a : Action ι} (h : step F policy w m (.machine a) = some m') :
    ∃ machine, m.machine.step F policy w a = some machine ∧ m' = { m with machine := machine } := by
  rw [step] at h
  split at h
  · cases h
  · obtain ⟨machine, hmachine, hm'⟩ := Option.map_eq_some_iff.mp h
    exact ⟨machine, hmachine, hm'.symm⟩

/-- What is sent stays in its place, and what is pending grows by it and goes
down by what is written. -/
structure Moves (m m' : Closing ι) (writes : ℕ) (more : List Value) : Prop where
  logged : m'.machine.logged = m.machine.logged ++ more
  pending : m'.pending.length + writes = m.pending.length + more.length

omit [DecidableEq ι] in
theorem Moves.trans {m'' : Closing ι} {writes writes' : ℕ} {more more' : List Value}
    (h : Moves m m' writes more) (h' : Moves m' m'' writes' more') :
    Moves m m'' (writes + writes') (more ++ more') := by
  refine ⟨by rw [h'.logged, h.logged, List.append_assoc], ?_⟩
  have hfirst := h.pending
  have hlast := h'.pending
  rw [List.length_append]
  omega

omit [DecidableEq ι] in
/-- A step that leaves the file and the commands on their way as they are. -/
theorem Inv.quiet (hm : m.Inv w path before) (hfs : m'.machine.fs = m.machine.fs)
    (hlogged : m'.machine.logged = m.machine.logged) (hpending : m'.pending = m.pending) :
    m'.Inv w path before ∧ ∃ more, Moves m m' 0 more := by
  obtain ⟨written, hwritten, hcontents⟩ := hm.written
  refine ⟨⟨by rw [hfs]; exact hm.name, written, ?_, by rw [hfs]; exact hcontents⟩, [], ?_, ?_⟩
  · rw [hlogged, hpending]
    exact hwritten
  · rw [hlogged, List.append_nil]
  · rw [hpending]
    rfl

theorem machine_inv {a : Action ι} (hm : m.Inv w path before)
    (h : step F policy w m (.machine a) = some m') :
    m'.Inv w path before ∧ ∃ more, Moves m m' (writesCommand (.machine a)).toNat more := by
  obtain ⟨machine, hstep, rfl⟩ := step_machine h
  cases a with
  | take c src =>
    obtain ⟨frame, rest, -, -, rfl⟩ := Machine.step_take hstep
    obtain ⟨written, hwritten, hcontents⟩ := hm.written
    refine ⟨⟨hm.name, written, ?_, hcontents⟩, (logEntry frame).toList, rfl, ?_⟩
    · show m.machine.logged ++ (logEntry frame).toList =
        written ++ (m.machine.hand.unwritten ++ (m.machine.channel ++ (logEntry frame).toList))
      rw [hwritten, pending]
      simp only [List.append_assoc]
    · show (m.machine.hand.unwritten ++ (m.machine.channel ++ (logEntry frame).toList)).length =
        (m.machine.hand.unwritten ++ m.machine.channel).length + (logEntry frame).toList.length
      rw [← List.append_assoc, List.length_append]
  | execute c ord info now =>
    obtain ⟨frame, ticket, -, rfl⟩ := Machine.step_execute hstep
    exact hm.quiet rfl rfl rfl
  | reply c =>
    obtain ⟨frame, reply, ticket, -, rfl⟩ := Machine.step_reply hstep
    exact hm.quiet rfl rfl rfl
  | receive =>
    obtain ⟨command, channel, hhand, hchannel, rfl⟩ := Machine.step_receive hstep
    refine hm.quiet rfl rfl ?_
    rw [pending, pending, hhand, hchannel]
    rfl
  | write =>
    obtain ⟨command, hhand, rfl⟩ := Machine.step_write hstep
    obtain ⟨written, hwritten, hcontents⟩ := hm.written
    have hempty : (Hand.afterWrite policy command).unwritten = [] := by
      cases policy <;> rfl
    refine ⟨⟨hm.name, written ++ [command], ?_, ?_⟩, [], (List.append_nil _).symm, ?_⟩
    · show m.machine.logged = _ ++ ((Hand.afterWrite policy command).unwritten ++ m.machine.channel)
      rw [hwritten, pending, hhand, hempty]
      simp [Hand.unwritten]
    · simp [AofWriter.append, hcontents]
    · show ((Hand.afterWrite policy command).unwritten ++ m.machine.channel).length + 1 =
        (m.machine.hand.unwritten ++ m.machine.channel).length + 0
      rw [hhand, hempty, Hand.unwritten]
      simp
  | sync =>
    obtain ⟨command, hhand, rfl⟩ := Machine.step_sync hstep
    refine hm.quiet rfl rfl ?_
    rw [pending, pending, hhand]
    rfl
  | fsync =>
    obtain ⟨-, rfl⟩ := Machine.step_fsync hstep
    exact hm.quiet rfl rfl rfl

theorem step_shutdown {a : CloseAction ι} (ha : ∀ b, a ≠ .machine b)
    (h : step F policy w m a = some m') :
    m'.machine.fs = m.machine.fs ∧ m'.machine.logged = m.machine.logged ∧
      m'.pending = m.pending := by
  cases a with
  | machine a => exact absurd rfl (ha a)
  | call | lock | fsync ok | save ok =>
    rw [step] at h
    split at h
    · obtain rfl := Option.some.inj h
      exact ⟨rfl, rfl, rfl⟩
    · cases h

theorem step_inv {a : CloseAction ι} (hm : m.Inv w path before)
    (h : step F policy w m a = some m') :
    m'.Inv w path before ∧ ∃ more, Moves m m' (writesCommand a).toNat more := by
  by_cases ha : ∀ b, a ≠ .machine b
  · obtain ⟨hfs, hlogged, hpending⟩ := step_shutdown ha h
    have hwrite : (writesCommand a).toNat = 0 := by
      cases a with
      | machine b => exact absurd rfl (ha b)
      | _ => rfl
    rw [hwrite]
    exact hm.quiet hfs hlogged hpending
  · obtain ⟨b, rfl⟩ : ∃ b, a = .machine b := by simpa using ha
    exact machine_inv hm h

theorem follow_inv {as : List (CloseAction ι)} (hm : m.Inv w path before)
    (h : System.follow (step F policy w) as m = some m') :
    m'.Inv w path before ∧ ∃ more, Moves m m' (as.countP writesCommand) more := by
  induction as generalizing m with
  | nil =>
    obtain rfl := Option.some.inj h
    exact ⟨hm, [], (List.append_nil _).symm, rfl⟩
  | cons a as ih =>
    obtain ⟨m₁, hfirst, hrest⟩ := Option.bind_eq_some_iff.mp h
    obtain ⟨hm₁, more, hmoves⟩ := step_inv hm hfirst
    obtain ⟨hm', more', hmoves'⟩ := ih hm₁ hrest
    refine ⟨hm', more ++ more', ?_⟩
    have hcount : (a :: as).countP writesCommand =
        (writesCommand a).toNat + as.countP writesCommand := by
      rw [List.countP_cons, Nat.add_comm]
      cases writesCommand a <;> rfl
    rw [hcount]
    exact hmoves.trans hmoves'

omit [DecidableEq ι] in
/-- The file has the first commands sent exactly when the pending ones are not
among them. -/
theorem Inv.contains_iff (hm : m.Inv w path before) {sent more : List Value}
    (hlogged : m.machine.logged = sent ++ more) :
    (∃ rest, m.machine.fs.read path = some (before ++ sent.flatMap encode ++ rest)) ↔
      m.pending.length ≤ more.length := by
  obtain ⟨written, hwritten, hcontents⟩ := hm.written
  have hread : m.machine.fs.read path = some (before ++ written.flatMap encode) := by
    rw [FileSystem.read, hm.name, Option.map_some, hcontents]
  have hsplit : sent ++ more = written ++ m.pending := hlogged.symm.trans hwritten
  have hlen := congrArg List.length hsplit
  rw [List.length_append, List.length_append] at hlen
  rw [hread]
  rcases List.append_eq_append_iff.mp hsplit with ⟨late, hlate, -⟩ | ⟨early, hearly, -⟩
  · rw [hlate] at hlen ⊢
    rw [List.length_append] at hlen
    refine iff_of_true ⟨late.flatMap encode, ?_⟩ (by omega)
    rw [List.flatMap_append, List.append_assoc]
  · rw [hearly] at hlen ⊢
    rw [List.length_append] at hlen
    cases early with
    | nil =>
      rw [List.length_nil] at hlen
      refine iff_of_true ⟨[], ?_⟩ (by omega)
      rw [List.append_nil, List.append_nil]
    | cons command early =>
      rw [List.length_cons] at hlen
      refine iff_of_false ?_ (by omega)
      rintro ⟨rest, hrest⟩
      rw [List.flatMap_append, List.append_assoc, List.append_assoc] at hrest
      have hbytes := List.append_cancel_left (Option.some.inj hrest)
      have hnone := (List.append_eq_nil_iff.mp (List.self_eq_append_right.mp hbytes)).1
      rw [List.flatMap_cons] at hnone
      exact encode_ne_nil command (List.append_eq_nil_iff.mp hnone).1

omit [DecidableEq ι] in
theorem start_inv (path : PathBuf) (fs : FileSystem) :
    (start path fs : Closing ι).Inv (AofWriter.new path fs).1 path ((fs.read path).getD []) := by
  obtain ⟨hname, hcontents⟩ := AofWriter.new_names path fs
  refine ⟨hname, [], rfl, ?_⟩
  rw [List.flatMap_nil, List.append_nil]
  exact hcontents

end Run

end Closing

open Closing

/-- `shutdown` is called in some state of a run and returns after further steps.
The file then has every command sent before the call if and only if these steps
write as many commands as were received or on the channel at the call. -/
theorem shutdown_keeps_sent {ι : Type} [DecidableEq ι] (F : FloatText) (policy : AofFsyncPolicy)
    (path : PathBuf) (fs : FileSystem) (m called closed m' : Closing ι)
    (during : List (CloseAction ι))
    (h : Runs (step F policy (AofWriter.new path fs).1) (fun _ _ => True) (start path fs) m)
    (hcall : step F policy (AofWriter.new path fs).1 m .call = some called)
    (hduring : System.follow (step F policy (AofWriter.new path fs).1) during called = some closed)
    (hreturn : step F policy (AofWriter.new path fs).1 closed (.save true) = some m') :
    (∃ rest, m'.machine.fs.read path =
      some ((fs.read path).getD [] ++ m.machine.logged.flatMap encode ++ rest)) ↔
      m.pending.length ≤ during.countP writesCommand := by
  have hm : m.Inv (AofWriter.new path fs).1 path ((fs.read path).getD []) :=
    runs_induction (start_inv path fs) (fun _ _ _ hm _ hstep => (step_inv hm hstep).1) h
  obtain ⟨hcalled, sent, hsent⟩ := step_inv hm hcall
  obtain ⟨hclosed, more, hmore⟩ := follow_inv hcalled hduring
  obtain ⟨hm', last, hlast⟩ := step_inv hclosed hreturn
  have hmoves := (hsent.trans hmore).trans hlast
  rw [hm'.contains_iff hmoves.logged]
  have hpending := hmoves.pending
  have hcallWrites : (writesCommand (.call : CloseAction ι)).toNat = 0 := rfl
  have hsaveWrites : (writesCommand (.save true : CloseAction ι)).toNat = 0 := rfl
  omega

/-! ### One SET -/

namespace Closing

def path : PathBuf := Str.utf8 "a.aof"

def setRequest : Value := commandValue "SET" [Str.utf8 "k", Str.utf8 "v"]

def request : List (CloseAction Unit) := [.machine (.take () (encode setRequest))]

def shutdown : List (CloseAction Unit) := [.call, .lock, .fsync true, .save true]

abbrev stepAlways : Closing Unit → CloseAction Unit → Option (Closing Unit) :=
  step noFloats .always (AofWriter.new path .empty).1

/-- The processor comes to the command while `shutdown` waits for the lock. -/
def drained : List (CloseAction Unit) :=
  [.machine .receive, .machine .write, .machine .sync, .lock, .fsync true]

end Closing

theorem shutdown_keeps_sent_drained : ∃ m called closed m' : Closing Unit,
    System.follow stepAlways request (start Closing.path .empty) = some m ∧
    stepAlways m .call = some called ∧ System.follow stepAlways drained called = some closed ∧
    stepAlways closed (.save true) = some m' ∧ m.machine.logged = [setRequest] ∧
    ∃ rest, m'.machine.fs.read Closing.path =
      some ([] ++ [setRequest].flatMap encode ++ rest) := by
  have hallowed : Allowed stepAlways (fun _ _ => True) request (start Closing.path .empty) :=
    allowed_all _ _
  have hruns := runs_follow hallowed rfl
  have hkept := shutdown_keeps_sent noFloats .always Closing.path .empty _ _ _ _ drained hruns
    rfl rfl rfl
  exact ⟨_, _, _, _, rfl, rfl, rfl, rfl, rfl, hkept.mpr le_rfl⟩

/-- The command is still on the channel when `shutdown` has returned. -/
theorem shutdown_loses_sent : ∃ m m' : Closing Unit,
    System.follow stepAlways request (start Closing.path .empty) = some m ∧
    System.follow stepAlways shutdown m = some m' ∧ m'.phase = .returned true ∧
    m.machine.logged = [setRequest] ∧ m'.machine.fs.read Closing.path = some [] ∧
    ¬ ∃ rest, m'.machine.fs.read Closing.path =
      some ([] ++ [setRequest].flatMap encode ++ rest) := by
  refine ⟨_, _, rfl, rfl, rfl, rfl, rfl, ?_⟩
  rintro ⟨rest, hrest⟩
  have hnil : ([] : Bytes) = encode setRequest ++ rest := by
    have h := Option.some.inj hrest
    rwa [List.nil_append, List.flatMap_singleton] at h
  exact encode_ne_nil setRequest (List.append_eq_nil_iff.mp hnil.symm).1

end FireRedis
