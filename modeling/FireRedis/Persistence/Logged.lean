import FireRedis.Persistence.Faithful

/-!
# A replay as a run of the logged requests

Executing log entries has the effect of serving them as requests, all at the
moment of the replay.
-/

namespace FireRedis

/-- The request is parsed to the command. -/
def ParsesTo (F : FloatText) (frame : Value) (cmd : Command) : Prop :=
  ∃ args, frame = .array (some args) ∧ tryFrom F args = .ok cmd

section Turns

variable (F : FloatText)

theorem runTurns_cons (t : Turn) (turns : List Turn) (s : Store) :
    runTurns F (t :: turns) s = runTurns F turns (t.run F s).2 := rfl

theorem runTurns_append (turns turns' : List Turn) (s : Store) :
    runTurns F (turns ++ turns') s = runTurns F turns' (runTurns F turns s) :=
  List.foldl_append ..

theorem inv_run (t : Turn) {s : Store} (hs : s.Inv fun _ => True) :
    (t.run F s).2.Inv fun _ => True := inv_respond F t.ord t.info t.now t.frame hs

theorem inv_runTurns (turns : List Turn) {s : Store} (hs : s.Inv fun _ => True) :
    (runTurns F turns s).Inv fun _ => True := by
  induction turns generalizing s with
  | nil => exact hs
  | cons t turns ih => exact ih (inv_run F t hs)

theorem run_parsed {t : Turn} {cmd : Command} (h : ParsesTo F t.frame cmd) (s : Store) :
    t.run F s = (cmd.execute F t.ord t.info).runAt t.now s := by
  obtain ⟨args, hframe, hparse⟩ := h
  rw [Turn.run, hframe, respond_parsed F t.ord t.info hparse]

variable (ord : IterOrder) (info : Bytes) (now : Reading)

theorem executeCommand_run {frame reply : Value} {s s' : Store}
    (h : (respond F ord info frame).runAt now s = (.ok reply, s')) :
    (executeCommand F ord info frame).runAt now s = (.ok (), s') := by
  rcases request_cases F frame with ⟨args, cmd, rfl, hcmd⟩ | ⟨e, hrejected⟩
  · rw [respond_parsed F ord info hcmd] at h
    rw [executeCommand_parsed F ord info hcmd, runAt_bind_ok now h]
    rfl
  · rw [hrejected.respond, runAt_pure] at h
    rw [hrejected.execute, runAt_pure, (Prod.mk.inj h).2]

/-- The turns that a replay takes. -/
def replayTurns (log : List Value) : List Turn := log.map fun frame => ⟨frame, ord, info, now⟩

theorem respond_of_logged {frame entry : Value} (hlog : logEntry frame = some entry) {s : Store}
    (hs : s.Inv fun _ => True) :
    ∃ reply, ((respond F ord info frame).runAt now s).1 = .ok reply := by
  rcases request_cases F frame with ⟨args, cmd, rfl, hcmd⟩ | ⟨e, hrejected⟩
  · rw [logEntry_parsed hcmd] at hlog
    have hw : cmd.isLogged = true := by
      by_contra hw
      simp [hw] at hlog
    rw [respond_parsed F ord info hcmd]
    exact execute_returns F ord info now cmd (mayPanic_of_logged hw) hs
  · exact ⟨e, by rw [hrejected.respond, runAt_pure]⟩

theorem forM_executeCommand (log : List Value) (hlog : ∀ v ∈ log, logEntry v = some v) {s : Store}
    (hs : s.Inv fun _ => True) : StoreM.runAt (forM log (executeCommand F ord info)) now s =
      (.ok (), runTurns F (replayTurns ord info now log) s) := by
  induction log generalizing s with
  | nil => rfl
  | cons v log ih =>
    obtain ⟨reply, hreply⟩ := respond_of_logged F ord info now (hlog v (List.mem_cons_self ..)) hs
    have hinv := inv_respond F ord info now v hs
    rcases hrun : (respond F ord info v).runAt now s with ⟨r, s'⟩
    rw [hrun] at hreply hinv
    obtain rfl : r = .ok reply := hreply
    have hturn : (Turn.run F ⟨v, ord, info, now⟩ s).2 = s' := congrArg Prod.snd hrun
    rw [List.forM_cons, runAt_bind_ok now (executeCommand_run F ord info now hrun), replayTurns,
      List.map_cons, runTurns_cons, hturn]
    exact ih (fun u hu => hlog u (List.mem_cons_of_mem _ hu)) hinv

theorem replay_turns {fs : FileSystem} {path : PathBuf} {log : List Value}
    (hwire : ∀ v ∈ log, v.Wire) (hlog : ∀ v ∈ log, logEntry v = some v)
    (hread : fs.read path = some (log.flatMap encode)) :
    (replay F ord info fs path).runAt now Store.empty =
      (.ok log.length, runTurns F (replayTurns ord info now log) Store.empty) := by
  rw [replay_log F ord info fs path log hwire hread,
    runAt_bind_ok now (forM_executeCommand F ord info now log hlog (Store.inv_empty _))]
  rfl

theorem logEntry_of_parses {frame : Value} {cmd : Command} (h : ParsesTo F frame cmd)
    (hw : cmd.isLogged = true) : logEntry frame = some frame := by
  obtain ⟨args, rfl, hparse⟩ := h
  rw [logEntry_parsed hparse, if_pos hw]

omit F ord info now in
theorem turnsLog_eq {turns : List Turn} {log : List Value} (hframes : turns.map Turn.frame = log)
    (hlog : ∀ v ∈ log, logEntry v = some v) : turnsLog turns = log := by
  subst hframes
  induction turns with
  | nil => rfl
  | cons t turns ih =>
    have htail := ih fun v hv => hlog v (List.mem_cons_of_mem _ hv)
    rw [turnsLog, List.filterMap_cons, hlog t.frame (List.mem_cons_self ..)]
    exact congrArg _ htail

end Turns

end FireRedis
