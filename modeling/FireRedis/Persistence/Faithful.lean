import FireRedis.Commands.Names
import FireRedis.Persistence.Replay
import FireRedis.Server

/-!
# Replay reproduces the live dataset

A request is logged exactly if the command it parses to writes; requests that
do not parse change nothing, logged or not. Executing the log of a connection
on any store with the same live entries, in any process, therefore gives the
live entries that serving the connection gave.
-/

namespace FireRedis
open Incremental

section Logging

theorem ascii_name (cmd : Command) : (Str.utf8 cmd.name).all (· < 0x80) = true := by
  cases cmd <;> rfl

theorem name_ne_nil (cmd : Command) : Str.utf8 cmd.name ≠ [] := by
  have h : (Str.utf8 cmd.name).isEmpty = false := by cases cmd <;> rfl
  exact fun hnil => by simp [hnil] at h

/-- The writes, and STRLEN, which the list of read commands leaves out. -/
def Command.isLogged : Command → Bool
  | .strLen _ => true
  | cmd => cmd.writes

theorem writes_of_unlogged {cmd : Command} (h : cmd.isLogged = false) : cmd.writes = false := by
  cases cmd with
  | strLen k => cases h
  | _ => exact h

theorem mayPanic_of_logged {cmd : Command} (h : cmd.isLogged = true) : cmd.mayPanic = false := by
  cases cmd with
  | lRange k start stop => cases h
  | zCount k minScore maxScore => cases h
  | _ => rfl

theorem readCommands_name (cmd : Command) :
    (readCommands.any fun r => Str.utf8 r = Str.utf8 cmd.name) = !cmd.isLogged := by
  cases cmd <;> rfl

theorem logEntry_parsed {F : FloatText} {args : List Value} {cmd : Command}
    (h : tryFrom F args = .ok cmd) :
    logEntry (.array (some args)) = if cmd.isLogged then some (.array (some args)) else none := by
  obtain ⟨-, b, rest, rfl, hupper⟩ := tryFrom_named h
  have hascii : ∀ c ∈ b, c < 0x80 := by
    apply ascii_of_toAsciiUppercase
    rw [hupper]
    exact fun c hc => of_decide_eq_true (List.all_eq_true.mp (ascii_name cmd) c hc)
  have hname : (commandName (.bulkString (some b) :: rest)).bytes = b :=
    Str.fromUtf8Lossy_of_ascii b hascii
  have hne : b ≠ [] := by
    rintro rfl
    exact name_ne_nil cmd hupper.symm
  have hlog : shouldLogToAof (commandName (.bulkString (some b) :: rest)) = cmd.isLogged := by
    rw [shouldLogToAof, hname, hupper, readCommands_name, Bool.not_not]
  simp [logEntry, hname, hne, hlog]

theorem logEntry_eq {frame entry : Value} (h : logEntry frame = some entry) : entry = frame := by
  unfold logEntry at h
  split at h
  · split at h
    · exact (Option.some.inj h).symm
    · cases h
  · cases h

end Logging

/-- A request that names SPOP. -/
def IsSPop : Value → Prop
  | .array (some (.bulkString (some b) :: _)) => toAsciiUppercase b = Str.utf8 "SPOP"
  | _ => False

section Execute

variable (F : FloatText) (ord ord' : IterOrder) (info info' : Bytes) (now : Reading)

/-- Logged commands other than SPOP do not depend on the process that executes them. -/
theorem execute_process (cmd : Command) (hw : cmd.isLogged = true) (hs : cmd.name ≠ "SPOP") :
    cmd.execute F ord info = cmd.execute F ord' info' := by
  cases cmd with
  | sPop k n => exact absurd rfl hs
  | info => cases hw
  | keys pattern => cases hw
  | sMembers k => cases hw
  | hKeys k => cases hw
  | hVals k => cases hw
  | hGetAll k => cases hw
  | zRange k start stop => cases hw
  | zRevRange k start stop => cases hw
  | _ => rfl

theorem respond_parsed {args : List Value} {cmd : Command} (h : tryFrom F args = .ok cmd) :
    respond F ord info (.array (some args)) = cmd.execute F ord info := by
  cases args with
  | nil => cases h
  | cons arg args => simp only [respond, h]

theorem executeCommand_parsed {args : List Value} {cmd : Command} (h : tryFrom F args = .ok cmd) :
    executeCommand F ord info (.array (some args)) =
      cmd.execute F ord info >>= fun _ => pure () := by
  simp only [executeCommand, h]

/-- A request that parses to no command: its reply is an error and nothing happens. -/
structure Rejected (F : FloatText) (frame reply : Value) : Prop where
  unparsed : ∀ {args}, frame = .array (some args) → ∀ cmd, tryFrom F args ≠ .ok cmd
  respond : ∀ ord info, FireRedis.respond F ord info frame = pure reply
  execute : ∀ ord info, executeCommand F ord info frame = pure ()

theorem respond_rejected (frame : Value)
    (h : ∀ args, frame = .array (some args) → ∀ cmd, tryFrom F args ≠ .ok cmd) :
    ∃ reply, Rejected F frame reply := by
  cases frame with
  | array items =>
    cases items with
    | none => exact ⟨_, h _, fun _ _ => rfl, fun _ _ => rfl⟩
    | some args =>
      cases ht : tryFrom F args with
      | ok cmd => exact absurd ht (h args rfl cmd)
      | error e =>
        have hexec : ∀ ord info, executeCommand F ord info (.array (some args)) = pure () := by
          intro ord info
          simp only [executeCommand, ht]
        cases args with
        | nil => exact ⟨_, h _, fun _ _ => rfl, hexec⟩
        | cons arg args =>
          refine ⟨e, h _, fun ord info => ?_, hexec⟩
          simp only [FireRedis.respond, ht]
  | _ => exact ⟨_, h _, fun _ _ => rfl, fun _ _ => rfl⟩

theorem request_cases (frame : Value) :
    (∃ args cmd, frame = .array (some args) ∧ tryFrom F args = .ok cmd) ∨
      ∃ reply, Rejected F frame reply := by
  by_cases hparsed : ∃ args cmd, frame = .array (some args) ∧ tryFrom F args = .ok cmd
  · exact Or.inl hparsed
  · exact Or.inr (respond_rejected F frame fun args ha cmd hc => hparsed ⟨args, cmd, ha, hc⟩)

/-- A request that is not logged leaves the live dataset as it was. -/
theorem respond_unlogged (frame : Value) (hlog : logEntry frame = none) {s : Store}
    (hs : s.Inv fun _ => True) :
    ((respond F ord info frame).runAt now s).2.live now.instant = s.live now.instant := by
  rcases request_cases F frame with ⟨args, cmd, rfl, hcmd⟩ | ⟨reply, hrejected⟩
  · rw [respond_parsed F ord info hcmd]
    apply execute_quiet F ord info now cmd _ hs
    rw [logEntry_parsed hcmd] at hlog
    apply writes_of_unlogged
    by_contra hw
    simp [hw] at hlog
  · rw [hrejected.respond]
    rfl

theorem inv_respond (frame : Value) {s : Store} (hs : s.Inv fun _ => True) :
    ((respond F ord info frame).runAt now s).2.Inv fun _ => True := by
  rcases request_cases F frame with ⟨args, cmd, rfl, hcmd⟩ | ⟨reply, hrejected⟩
  · rw [respond_parsed F ord info hcmd]
    exact inv_execute F ord info now Closed.all cmd (fun _ _ => trivial) hs
  · rw [hrejected.respond]
    exact hs

/-- A logged request returns, and executing its log entry on a store with the
same live entries changes them in the same way. -/
theorem respond_logged (frame entry : Value) (hlog : logEntry frame = some entry)
    (hpop : ¬ IsSPop frame) {s s' : Store} (hs : s.Inv fun _ => True)
    (hs' : s'.Inv fun _ => True) (hl : s.live now.instant = s'.live now.instant) :
    (∃ reply, ((respond F ord info frame).runAt now s).1 = .ok reply) ∧
      ∃ s'', (executeCommand F ord' info' entry).runAt now s' = (.ok (), s'') ∧
        (s''.Inv fun _ => True) ∧
        ((respond F ord info frame).runAt now s).2.live now.instant = s''.live now.instant := by
  rcases request_cases F frame with ⟨args, cmd, rfl, hcmd⟩ | ⟨reply, hrejected⟩
  · rw [logEntry_parsed hcmd] at hlog
    by_cases hw : cmd.isLogged = true
    · obtain rfl : Value.array (some args) = entry := by simpa [hw] using hlog
      have hname : cmd.name ≠ "SPOP" := by
        obtain ⟨-, b, rest, rfl, hupper⟩ := tryFrom_named hcmd
        intro h
        exact hpop (by rw [IsSPop, hupper, h])
      rw [respond_parsed F ord info hcmd, executeCommand_parsed F ord' info' hcmd]
      refine ⟨execute_returns F ord info now cmd (mayPanic_of_logged hw) hs, ?_⟩
      obtain ⟨reply', hreply'⟩ := execute_returns F ord' info' now cmd (mayPanic_of_logged hw) hs'
      obtain ⟨-, hlive⟩ :=
        execute_live F ord info now Closed.all info cmd (fun _ _ => trivial) hs hs' hl
      have hinv := inv_execute F ord' info' now Closed.all cmd (fun _ _ => trivial) hs'
      rcases hrun : (cmd.execute F ord' info').runAt now s' with ⟨r, s''⟩
      rw [hrun] at hreply' hinv
      rw [execute_process F ord ord' info info' cmd hw hname] at hlive ⊢
      rw [hrun] at hlive
      refine ⟨s'', ?_, hinv, hlive⟩
      rw [runAt_bind_ok (a := reply') _ (by rw [hrun, ← hreply'])]
      rfl
    · simp [hw] at hlog
  · rw [hrejected.respond, logEntry_eq hlog, hrejected.execute]
    exact ⟨⟨reply, rfl⟩, s', rfl, hs', hl⟩

theorem logged_subset (frames : List Value) (s : Store) :
    ∀ v ∈ (handleConnection F ord info now frames s).logged, v ∈ frames := by
  induction frames generalizing s with
  | nil => exact fun v hv => hv
  | cons frame frames ih =>
    have hentry : ∀ v ∈ (logEntry frame).toList, v ∈ frame :: frames := by
      intro v hv
      rw [logEntry_eq (Option.mem_toList.mp hv)]
      exact List.mem_cons_self ..
    intro v hv
    rw [handleConnection] at hv
    rcases hrun : (respond F ord info frame).runAt now s with ⟨r, t⟩
    rw [hrun] at hv
    cases r with
    | error p => exact hentry v hv
    | ok reply =>
      rcases List.mem_append.mp hv with hv | hv
      · exact hentry v hv
      · exact List.mem_cons_of_mem _ (ih t v hv)

/-- Serving a connection and executing its log end with the same live entries. -/
theorem handleConnection_log (frames : List Value) (hpop : ∀ f ∈ frames, ¬ IsSPop f)
    {s s' : Store} (hs : s.Inv fun _ => True) (hs' : s'.Inv fun _ => True)
    (hl : s.live now.instant = s'.live now.instant) :
    ∃ s'', StoreM.runAt (forM (handleConnection F ord info now frames s).logged
        (executeCommand F ord' info')) now s' = (.ok (), s'') ∧
      (handleConnection F ord info now frames s).store.live now.instant =
        s''.live now.instant := by
  induction frames generalizing s s' with
  | nil => exact ⟨s', rfl, hl⟩
  | cons frame frames ih =>
    have hpop' := fun f hf => hpop f (List.mem_cons_of_mem _ hf)
    have hinv := inv_respond F ord info now frame hs
    rw [handleConnection]
    cases hlog : logEntry frame with
    | none =>
      have hquiet := respond_unlogged F ord info now frame hlog hs
      rcases hrun : (respond F ord info frame).runAt now s with ⟨r, t⟩
      rw [hrun] at hquiet hinv
      cases r with
      | ok reply => exact ih hpop' hinv hs' (hquiet.trans hl)
      | error p => exact ⟨s', rfl, hquiet.trans hl⟩
    | some entry =>
      obtain ⟨⟨reply, hreply⟩, s'', hexec, hinv'', hlive⟩ := respond_logged F ord ord' info info'
        now frame entry hlog (hpop frame (List.mem_cons_self ..)) hs hs' hl
      rcases hrun : (respond F ord info frame).runAt now s with ⟨r, t⟩
      rw [hrun] at hreply hinv hlive
      obtain rfl : r = .ok reply := hreply
      obtain ⟨u, hu, hul⟩ := ih hpop' hinv hinv'' hlive
      refine ⟨u, ?_, hul⟩
      simp only [Option.toList_some, List.singleton_append, List.forM_cons]
      rw [runAt_bind_ok _ hexec]
      exact hu

theorem replay_log (fs : FileSystem) (path : PathBuf) (log : List Value)
    (hlog : ∀ v ∈ log, v.Wire) (hread : fs.read path = some (log.flatMap encode)) :
    replay F ord info fs path = do
      forM log (executeCommand F ord info)
      return log.length := by
  rw [replay, hread]
  simp only [replayBytes_whole (executeCommand F ord info) log hlog, bind_assoc, pure_bind]

/-- The log of a connection, appended to an empty file and replayed into an empty
store by another process at the same clock reading, gives the live dataset of
the server; in particular unlogged requests change nothing. -/
theorem replay_reproduces (path : PathBuf) (fs : FileSystem)
    (hempty : ∀ bytes, fs.read path = some bytes → bytes = []) (stream : Bytes)
    (hpop : ∀ f ∈ (drain decode stream).1, ¬ IsSPop f) :
    let served := handleConnection F ord info now (drain decode stream).1 Store.empty
    let writer := (AofWriter.new path fs).1
    let fs' := writer.appendAll served.logged (AofWriter.new path fs).2
    (∃ n s, (replay F ord' info' fs' path).runAt now Store.empty = (.ok n, s) ∧
        s.live now.instant = served.store.live now.instant) ∧
      ∀ frame (s : Store), (s.Inv fun _ => True) → logEntry frame = none →
        ((respond F ord info frame).runAt now s).2.live now.instant = s.live now.instant := by
  intro served writer fs'
  refine ⟨?_, fun frame s hs hlog => respond_unlogged F ord info now frame hlog hs⟩
  have hwire : ∀ v ∈ served.logged, v.Wire := fun v hv =>
    wire_of_drain stream v (logged_subset F ord info now _ Store.empty v hv)
  have hread : fs'.read path = some (served.logged.flatMap encode) :=
    AofWriter.read_appendAll path hempty served.logged
  obtain ⟨s, hs, hlive⟩ := handleConnection_log F ord ord' info info' now
    (drain decode stream).1 hpop (Store.inv_empty _) (Store.inv_empty _) rfl
  refine ⟨served.logged.length, s, ?_, hlive.symm⟩
  rw [replay_log F ord' info' fs' path served.logged hwire hread, runAt_bind_ok _ hs]
  rfl

/-- SET with a deadline, a read and an unknown command, on a process with another
iteration order. -/
theorem replay_reproduces_session :
    let F : FloatText := noFloats
    let stream := [commandValue "set" [Str.utf8 "k", Str.utf8 "v", Str.utf8 "PX", Str.utf8 "5"],
      commandValue "GET" [Str.utf8 "k"], commandValue "NOPE" []].flatMap encode
    let served := handleConnection F .sorted [] ⟨7, 0⟩ (drain decode stream).1 Store.empty
    let writer := (AofWriter.new (Str.utf8 "a.aof") .empty).1
    let fs := writer.appendAll served.logged (AofWriter.new (Str.utf8 "a.aof") .empty).2
    ∃ n s, (replay F .sorted [] fs (Str.utf8 "a.aof")).runAt ⟨7, 0⟩ Store.empty = (.ok n, s) ∧
      s.live 7 = served.store.live 7 := by
  intro F stream served writer fs
  have hdrain := drain_encoded decode_lawful (by omega) inverts_wire
    [commandValue "set" [Str.utf8 "k", Str.utf8 "v", Str.utf8 "PX", Str.utf8 "5"],
      commandValue "GET" [Str.utf8 "k"], commandValue "NOPE" []] (by
        intro v hv
        simp only [List.mem_cons, List.not_mem_nil, or_false] at hv
        rcases hv with rfl | rfl | rfl <;>
          exact wire_commandValue _ _ (by decide) (by decide) (by decide)) []
  rw [List.append_nil, drain_more decode_lawful decode_nil, List.append_nil] at hdrain
  refine (replay_reproduces F .sorted .sorted [] [] ⟨7, 0⟩ (Str.utf8 "a.aof") .empty
    (fun bytes h => by cases h) stream ?_).1
  rw [hdrain]
  intro f hf
  simp only [List.mem_cons, List.not_mem_nil, or_false] at hf
  rcases hf with rfl | rfl | rfl
  · show ¬ toAsciiUppercase (Str.utf8 "set") = Str.utf8 "SPOP"
    decide
  · show ¬ toAsciiUppercase (Str.utf8 "GET") = Str.utf8 "SPOP"
    decide
  · show ¬ toAsciiUppercase (Str.utf8 "NOPE") = Str.utf8 "SPOP"
    decide

end Execute

end FireRedis
