import FireRedis.Persistence.Mirror

/-!
# Keys that expire while the log is written

The log names a deadline as a time to live and says nothing of keys that expire,
so a replay still holds a key that the server has lost. It stays in the way of a
command that creates the key again, until the key is replaced as a whole.
-/

namespace FireRedis

/-- A request, or a round of the background evictor. -/
inductive LiveStep where
  | request (t : Turn)
  | evict (now : Reading)

namespace LiveStep

def now : LiveStep → Reading
  | request t => t.now
  | evict now => now

def run (F : FloatText) : LiveStep → Store → Store
  | request t, s => (t.run F s).2
  | evict now, s => (Store.evictExpired.runAt now s).2

/-- Neither eviction nor expiry sends anything on the AOF channel. -/
def logged : LiveStep → Option Value
  | request t => logEntry t.frame
  | evict _ => none

/-- The command that is executed. -/
def command (F : FloatText) : LiveStep → Option Command
  | request ⟨.array (some args), _, _, _⟩ => (tryFrom F args).toOption
  | _ => none

end LiveStep

def runLive (F : FloatText) (steps : List LiveStep) (s : Store) : Store :=
  steps.foldl (fun s step => step.run F s) s

def liveLog (steps : List LiveStep) : List Value := steps.filterMap LiveStep.logged

/-- What became of a key since it was last replaced: its deadline never passed,
or passed, or passed before a command created the key again. -/
inductive Fate where
  | kept
  | expired
  | revived
  deriving DecidableEq

/-- The deadline of the key has passed. -/
def Store.lapsed (s : Store) (t : Instant) (key : Str) : Bool :=
  s.expirations[key]?.any fun d => d ≤ t

namespace Fate

/-- The clock goes on. -/
def wait (key : Str) (t : Instant) (s : Store) (fate : Fate) : Fate :=
  if fate = .kept ∧ s.lapsed t key then .expired else fate

def execute (key : Str) (cmd : Command) (fate : Fate) : Fate :=
  if cmd.replaces key then .kept
  else if fate = .expired ∧ cmd.creates key then .revived
  else fate

def step (F : FloatText) (key : Str) (step : LiveStep) (s : Store) (fate : Fate) : Fate :=
  let fate := fate.wait key step.now.instant s
  (step.command F).elim fate fun cmd => fate.execute key cmd

/-- The fate of the key at the end of a run. -/
def after (F : FloatText) (key : Str) : List LiveStep → Store → Fate → Fate
  | [], _, fate => fate
  | s :: steps, store, fate => after F key steps (s.run F store) (fate.step F key s store)

/-- What the fate says about the entries of the key on the server and in the replay. -/
def Agrees : Fate → Option Entry → Option Entry → Prop
  | kept, e, e' => Mirror e e'
  | expired, e, _ => e = none
  | revived, _, _ => True

end Fate

section Wait

variable {s : Store} {key : Str} {t t' : Instant}

theorem live_lapsed (h : s.lapsed t key = true) : s.live t key = none := by
  rw [Store.lapsed] at h
  rw [Store.live]
  cases hd : s.expirations[key]? with
  | none => simp [hd] at h
  | some d =>
    have hle : d ≤ t := by simpa [hd] using h
    cases s.data[key]? with
    | none => rfl
    | some v => exact if_pos hle

theorem live_unlapsed (hle : t ≤ t') (h : s.lapsed t' key = false) :
    s.live t' key = s.live t key := by
  rw [Store.lapsed] at h
  rw [Store.live, Store.live]
  cases hd : s.expirations[key]? with
  | none => cases s.data[key]? <;> rfl
  | some d =>
    have hlt : ¬ d ≤ t' := by simpa [hd] using h
    have hlt' : ¬ d ≤ t := fun hdt => hlt (hdt.trans hle)
    cases s.data[key]? with
    | none => rfl
    | some v => rw [liveOf, liveOf, if_neg hlt, if_neg hlt']

theorem wait_agrees {fate : Fate} (hle : t ≤ t') {e' : Option Entry}
    (h : fate.Agrees (s.live t key) e') : (fate.wait key t' s).Agrees (s.live t' key) e' := by
  cases fate with
  | kept =>
    cases hlapsed : s.lapsed t' key with
    | true =>
      have hwait : Fate.wait key t' s .kept = .expired := by simp [Fate.wait, hlapsed]
      rw [hwait]
      exact live_lapsed hlapsed
    | false =>
      have hwait : Fate.wait key t' s .kept = .kept := by simp [Fate.wait, hlapsed]
      rw [hwait, live_unlapsed hle hlapsed]
      exact h
  | expired =>
    have hnone : s.live t key = none := h
    show s.live t' key = none
    rw [Store.live_later s hle, hnone]
    rfl
  | revived => trivial

end Wait

section Step

variable (F : FloatText) (ord : IterOrder) (info : Bytes) (now' : Reading) {key : Str}
  {s s' : Store} {fate : Fate}

theorem execute_agrees {cmd : Command} (now : Reading) (hs : s.Inv fun _ => True)
    (hs' : s'.Inv fun _ => True) (hlog : cmd.isLogged = true) (hpop : cmd.name ≠ "SPOP")
    (h : fate.Agrees (s.live now.instant key) (s'.live now'.instant key)) :
    (fate.execute key cmd).Agrees
      (((cmd.execute F ord info).runAt now s).2.live now.instant key)
      (((cmd.execute F ord info).runAt now' s').2.live now'.instant key) := by
  unfold Fate.execute
  split
  · rename_i hrep
    exact replace_execute F ord info now now' hs hs' hrep
  · rename_i hrep
    have hrep : cmd.replaces key = false := Bool.not_eq_true _ ▸ hrep
    split
    · trivial
    · rename_i hcreates
      cases fate with
      | kept => exact mirror_execute F ord info now now' hs hs' hlog hpop h hrep
      | expired =>
        refine absent_execute F ord info now hs hlog hpop h hrep ?_
        by_contra hc
        exact hcreates ⟨rfl, Bool.not_eq_false _ ▸ hc⟩
      | revived => trivial

theorem execute_unlogged {cmd : Command} (hlog : cmd.isLogged = false) :
    fate.execute key cmd = fate := by
  have hw := writes_of_unlogged hlog
  have hrep : ¬ cmd.replaces key = true := fun h => by
    cases hw.symm.trans (writes_of_replaces h)
  have hcreates : ¬ cmd.creates key = true := fun h => by
    cases hw.symm.trans (writes_of_creates h)
  rw [Fate.execute, if_neg hrep, if_neg fun h => hcreates h.2]

/-- What the replay does with the log entry of a step. -/
def replayStep (step : LiveStep) (s : Store) : Store :=
  runTurns F (replayTurns ord info now' step.logged.toList) s

theorem inv_liveStep (step : LiveStep) (hs : s.Inv fun _ => True) :
    (step.run F s).Inv fun _ => True := by
  cases step with
  | request t => exact inv_run F t hs
  | evict now => exact (Keeps.evictExpired now s hs).1

omit ord info now' in
theorem command_parsed {t : Turn} {cmd : Command} (h : ParsesTo F t.frame cmd) :
    (LiveStep.request t).command F = some cmd := by
  obtain ⟨frame, ord, info, now⟩ := t
  obtain ⟨args, rfl, hparse⟩ := h
  rw [LiveStep.command, hparse]
  rfl

omit ord info now' in
theorem command_rejected {t : Turn} (h : ∀ cmd, ¬ ParsesTo F t.frame cmd) :
    (LiveStep.request t).command F = none := by
  obtain ⟨frame, ord, info, now⟩ := t
  unfold LiveStep.command
  split
  · rename_i args ord info now heq
    cases heq
    cases hparse : tryFrom F args with
    | ok cmd => exact absurd ⟨args, rfl, hparse⟩ (h cmd)
    | error e => rfl
  · rfl

variable (s s') in
theorem request_rejected {t : Turn} (h : ∀ cmd, ¬ ParsesTo F t.frame cmd) :
    (LiveStep.request t).run F s = s ∧
      replayStep F ord info now' (.request t) s' = s' := by
  obtain ⟨reply, hrejected⟩ := respond_rejected F t.frame fun args hargs cmd hcmd =>
    h cmd ⟨args, hargs, hcmd⟩
  have hnone : ∀ (u : Turn) (s : Store), u.frame = t.frame → (u.run F s).2 = s := by
    intro u s hu
    rw [Turn.run, hu, hrejected.respond]
    rfl
  refine ⟨hnone t s rfl, ?_⟩
  rw [replayStep, LiveStep.logged]
  cases hlog : logEntry t.frame with
  | none => rfl
  | some entry => exact hnone ⟨entry, ord, info, now'⟩ s' (logEntry_eq hlog)

theorem request_parsed {t : Turn} {cmd : Command} (hpop : ¬ IsSPop t.frame)
    (h : ParsesTo F t.frame cmd) (hs : s.Inv fun _ => True) (hs' : s'.Inv fun _ => True)
    (hfate : fate.Agrees (s.live t.now.instant key) (s'.live now'.instant key)) :
    (fate.execute key cmd).Agrees ((t.run F s).2.live t.now.instant key)
      ((replayStep F ord info now' (.request t) s').live now'.instant key) := by
  have hrun := run_parsed F h s
  obtain ⟨args, hframe, hparse⟩ := id h
  cases hlog : cmd.isLogged with
  | false =>
    have hentry : logEntry t.frame = none := by
      rw [hframe, logEntry_parsed hparse, hlog]
      rfl
    have hquiet := execute_quiet F t.ord t.info t.now cmd (writes_of_unlogged hlog) hs
    rw [execute_unlogged hlog, hrun, hquiet, replayStep, LiveStep.logged, hentry]
    exact hfate
  | true =>
    have hentry : logEntry t.frame = some t.frame := logEntry_of_parses F h hlog
    have hname : cmd.name ≠ "SPOP" := by
      obtain ⟨-, b, rest, rfl, hupper⟩ := tryFrom_named hparse
      intro hspop
      rw [hframe, IsSPop, hupper, hspop] at hpop
      exact hpop rfl
    have hreplay : replayStep F ord info now' (.request t) s' =
        ((cmd.execute F ord info).runAt now' s').2 := by
      rw [replayStep, LiveStep.logged, hentry]
      exact congrArg Prod.snd (run_parsed F (t := ⟨t.frame, ord, info, now'⟩) h s')
    rw [hrun, hreplay, execute_process F t.ord ord t.info info cmd hlog hname]
    exact execute_agrees F ord info now' t.now hs hs' hlog hname hfate

theorem step_agrees (step : LiveStep) {t : Instant} (hle : t ≤ step.now.instant)
    (hpop : ∀ u, step = .request u → ¬ IsSPop u.frame) (hs : s.Inv fun _ => True)
    (hs' : s'.Inv fun _ => True) (h : fate.Agrees (s.live t key) (s'.live now'.instant key)) :
    (fate.step F key step s).Agrees ((step.run F s).live step.now.instant key)
      ((replayStep F ord info now' step s').live now'.instant key) := by
  have hwait := wait_agrees hle h
  cases step with
  | evict now =>
    have hlive : (LiveStep.run F (.evict now) s).live now.instant = s.live now.instant := by
      rw [LiveStep.run, evictExpired_snd, Store.live_evicted hs]
    rw [LiveStep.now, hlive]
    exact hwait
  | request u =>
    by_cases hparsed : ∃ cmd, ParsesTo F u.frame cmd
    · obtain ⟨cmd, hcmd⟩ := hparsed
      rw [Fate.step, command_parsed F hcmd]
      exact request_parsed F ord info now' (hpop u rfl) hcmd hs hs' hwait
    · have hnone := fun cmd hcmd => hparsed ⟨cmd, hcmd⟩
      obtain ⟨hrun, hreplay⟩ := request_rejected F ord info now' s s' hnone
      rw [Fate.step, command_rejected F hnone, hrun, hreplay]
      exact hwait

theorem after_agrees (steps : List LiveStep)
    (hmono : steps.Pairwise fun a b => a.now.instant ≤ b.now.instant) {t : Instant}
    (ht : ∀ step ∈ steps, t ≤ step.now.instant)
    (hpop : ∀ u, .request u ∈ steps → ¬ IsSPop u.frame) (hs : s.Inv fun _ => True)
    (hs' : s'.Inv fun _ => True) (h : fate.Agrees (s.live t key) (s'.live now'.instant key)) :
    ∃ t', (Fate.after F key steps s fate).Agrees ((runLive F steps s).live t' key)
      ((runTurns F (replayTurns ord info now' (liveLog steps)) s').live now'.instant key) := by
  induction steps generalizing s s' fate t with
  | nil => exact ⟨t, h⟩
  | cons step steps ih =>
    obtain ⟨hfirst, hmono⟩ := List.pairwise_cons.mp hmono
    obtain ⟨hle, -⟩ := List.forall_mem_cons.mp ht
    have hlog : replayTurns ord info now' (liveLog (step :: steps)) =
        replayTurns ord info now' step.logged.toList ++
          replayTurns ord info now' (liveLog steps) := by
      rw [replayTurns, replayTurns, replayTurns, ← List.map_append, liveLog, List.filterMap_cons]
      cases step.logged <;> rfl
    rw [hlog, runTurns_append]
    refine ih hmono hfirst (fun u hu => hpop u (List.mem_cons_of_mem _ hu))
      (inv_liveStep F step hs) (inv_runTurns F _ hs') ?_
    exact step_agrees F ord info now' step hle (fun u hu => hpop u (hu ▸ List.mem_cons_self ..))
      hs hs' h

end Step

theorem mem_liveLog {steps : List LiveStep} (hwire : ∀ u, .request u ∈ steps → u.frame.Wire)
    {v : Value} (hv : v ∈ liveLog steps) : logEntry v = some v ∧ v.Wire := by
  obtain ⟨step, hstep, hlogged⟩ := List.mem_filterMap.mp hv
  cases step with
  | request u =>
    have heq := logEntry_eq hlogged
    subst heq
    exact ⟨hlogged, hwire u hstep⟩
  | evict now => cases hlogged

/-- The log of a run, replayed at one moment, whenever that is, holds every key that
the server holds with no deadline, unless the key expired and was created again
while the replay still held it. -/
theorem replay_of_unrevived (F : FloatText) (steps : List LiveStep)
    (hmono : steps.Pairwise fun a b => a.now.instant ≤ b.now.instant)
    (hwire : ∀ u, .request u ∈ steps → u.frame.Wire)
    (hpop : ∀ u, .request u ∈ steps → ¬ IsSPop u.frame) (path : PathBuf) (fs : FileSystem)
    (hempty : ∀ bytes, fs.read path = some bytes → bytes = []) (ord : IterOrder) (info : Bytes)
    (now' : Reading) :
    let fs' := (AofWriter.new path fs).1.appendAll (liveLog steps) (AofWriter.new path fs).2
    ∃ n s', (replay F ord info fs' path).runAt now' Store.empty = (.ok n, s') ∧
      ∀ key t v, Fate.after F key steps Store.empty .kept ≠ .revived →
        (runLive F steps Store.empty).live t key = some ⟨v, none⟩ →
        s'.live now'.instant key = some ⟨v, none⟩ := by
  intro fs'
  have hentry := fun v hv => mem_liveLog hwire (v := v) hv
  have hread : fs'.read path = some ((liveLog steps).flatMap encode) :=
    AofWriter.read_appendAll path hempty (liveLog steps)
  refine ⟨_, _, replay_turns F ord info now' (fun v hv => (hentry v hv).2)
    (fun v hv => (hentry v hv).1) hread, fun key t v hfate hlive => ?_⟩
  have hstart : Fate.kept.Agrees (Store.empty.live 0 key) (Store.empty.live now'.instant key) :=
    .absent
  obtain ⟨t', hagrees⟩ := after_agrees F ord info now' steps hmono
    (fun step _ => Nat.zero_le step.now.instant) hpop (Store.inv_empty _) (Store.inv_empty _) hstart
  -- A live entry with no deadline is live at every moment.
  obtain ⟨hvalue, hdeadline, -⟩ := liveOf_eq_some.mp hlive
  have hlive' : (runLive F steps Store.empty).live t' key = some ⟨v, none⟩ :=
    liveOf_eq_some.mpr ⟨hvalue, hdeadline, nofun⟩
  rw [hlive'] at hagrees
  cases hafter : Fate.after F key steps Store.empty .kept with
  | kept =>
    rw [hafter] at hagrees
    exact Mirror.permanent hagrees
  | expired =>
    rw [hafter] at hagrees
    cases hagrees
  | revived => exact absurd hafter hfate

/-! ### Two runs -/

namespace Lapsed

def path : PathBuf := Str.utf8 "a.aof"

/-- The file that a run leaves. -/
def logFile (steps : List LiveStep) : FileSystem :=
  (AofWriter.new path .empty).1.appendAll (liveLog steps) (AofWriter.new path .empty).2

def request (name : String) (args : List String) (t : Instant) : LiveStep :=
  .request ⟨commandValue name (args.map Str.utf8), .sorted, [], ⟨t, 0⟩⟩

theorem request_frame {name : String} {args : List String} {t : Instant}
    (hname : (Str.utf8 name).length ≤ isizeMax)
    (hlen : ((args.map Str.utf8).length + 1) * sizeOfValue ≤ isizeMax)
    (hargs : ∀ b ∈ args.map Str.utf8, b.length ≤ isizeMax)
    (hpop : toAsciiUppercase (Str.utf8 name) ≠ Str.utf8 "SPOP") {u : Turn}
    (hu : .request u = request name args t) : u.frame.Wire ∧ ¬ IsSPop u.frame := by
  obtain rfl := LiveStep.request.inj hu
  exact ⟨wire_commandValue name (args.map Str.utf8) hname hlen hargs, hpop⟩

/-- A key that expires and is set again before INCR. -/
def replaced : List LiveStep :=
  [request "SET" ["k", "5", "PX", "1"] 0, .evict ⟨2000000, 0⟩, request "SET" ["k", "7"] 3000000,
    request "INCR" ["k"] 4000000]

/-- A key that expires before INCR. -/
def counted : List LiveStep :=
  [request "SET" ["k", "5", "PX", "10"] 0, request "INCR" ["k"] 20000000]

theorem fate_replaced : Fate.after noFloats (Str.lit "k") replaced Store.empty .kept = .kept := rfl

theorem live_replaced : (runLive noFloats replaced Store.empty).live 4000000 (Str.lit "k") =
    some ⟨.string (Str.utf8 "8"), none⟩ := rfl

theorem live_counted : (runLive noFloats counted Store.empty).live 20000000 (Str.lit "k") =
    some ⟨.string (Str.utf8 "1"), none⟩ := rfl

theorem replay_counted : ((runTurns noFloats (replayTurns .sorted [] ⟨30000000, 0⟩
    (liveLog counted)) Store.empty).live 30000000 (Str.lit "k")).map Entry.value =
      some (.string (Str.utf8 "6")) := rfl

end Lapsed

open Lapsed

theorem replay_of_unrevived_replaced : ∃ n s,
    (replay noFloats .sorted [] (logFile replaced) path).runAt ⟨9000000, 0⟩ Store.empty =
        (.ok n, s) ∧
      s.live 9000000 (Str.lit "k") = some ⟨.string (Str.utf8 "8"), none⟩ := by
  have hmono : replaced.Pairwise fun a b => a.now.instant ≤ b.now.instant := by
    simp [replaced, request, LiveStep.now]
  have hframes : ∀ u, .request u ∈ replaced → u.frame.Wire ∧ ¬ IsSPop u.frame := by
    intro u hu
    simp only [replaced, List.mem_cons, List.not_mem_nil, or_false] at hu
    rcases hu with hu | hu | hu | hu
    · exact request_frame (by decide) (by decide) (by decide) (by decide) hu
    · cases hu
    · exact request_frame (by decide) (by decide) (by decide) (by decide) hu
    · exact request_frame (by decide) (by decide) (by decide) (by decide) hu
  obtain ⟨n, s, hreplay, hkeys⟩ := replay_of_unrevived noFloats replaced hmono
    (fun u hu => (hframes u hu).1) (fun u hu => (hframes u hu).2) path .empty
    (fun bytes h => by cases h) .sorted [] ⟨9000000, 0⟩
  have hkept : Fate.after noFloats (Str.lit "k") replaced Store.empty .kept ≠ .revived := by
    rw [fate_replaced]
    decide
  exact ⟨n, s, hreplay, hkeys _ _ _ hkept live_replaced⟩

/-- INCR counts from 0 on the server and from the old value in the replay. -/
theorem expired_key_comes_back :
    (counted.Pairwise fun a b => a.now.instant ≤ b.now.instant) ∧
    (∀ u, .request u ∈ counted → ¬ IsSPop u.frame) ∧
    (runLive noFloats counted Store.empty).live 20000000 (Str.lit "k") =
      some ⟨.string (Str.utf8 "1"), none⟩ ∧
    ∃ n s, (replay noFloats .sorted [] (logFile counted) path).runAt ⟨30000000, 0⟩ Store.empty =
        (.ok n, s) ∧
      (s.live 30000000 (Str.lit "k")).map Entry.value = some (.string (Str.utf8 "6")) := by
  have hframes : ∀ u, .request u ∈ counted → u.frame.Wire ∧ ¬ IsSPop u.frame := by
    intro u hu
    simp only [counted, List.mem_cons, List.not_mem_nil, or_false] at hu
    rcases hu with hu | hu
    · exact request_frame (by decide) (by decide) (by decide) (by decide) hu
    · exact request_frame (by decide) (by decide) (by decide) (by decide) hu
  refine ⟨?_, fun u hu => (hframes u hu).2, live_counted, ?_⟩
  · simp [counted, request, LiveStep.now]
  · have hread : (logFile counted).read path = some ((liveLog counted).flatMap encode) :=
      AofWriter.read_appendAll _ (fun bytes h => by cases h) (liveLog counted)
    have hentry := fun v hv => mem_liveLog (fun u hu => (hframes u hu).1) (v := v) hv
    exact ⟨_, _, replay_turns noFloats .sorted [] ⟨30000000, 0⟩ (fun v hv => (hentry v hv).2)
      (fun v hv => (hentry v hv).1) hread, replay_counted⟩

end FireRedis
