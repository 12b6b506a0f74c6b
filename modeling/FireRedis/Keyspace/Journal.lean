import FireRedis.Keyspace.Runs
import FireRedis.Persistence.Manager
import FireRedis.Persistence.Mirror
import FireRedis.Persistence.Torn

/-!
# The log survives crashes

Requests put their log entries into a queue, a task appends them to the file, a
process dies and another one replays what is there. Where no request sets a
deadline or pops from a set, clients see a keyspace that falls back, at each
start, to what it was after the last request whose entry reached the file, and
the server goes on from there.

A process that dies within an append loses that entry too, at the next start. What
it leaves of the entry stays in the file, and nothing is promised about entries
that are appended behind it.
-/

namespace FireRedis
open Std Simulation

/-! ### Requests that mean the same at any time -/

structure Lasting (F : FloatText) (frame : Value) : Prop where
  noDeadline : ∀ cmd, ParsesTo F frame cmd → cmd.setsDeadline = false
  noPop : ¬ IsSPop frame
  wire : ∀ entry, logEntry frame = some entry → entry.Wire

def Dataset.Permanent (E : Dataset) : Prop := ∀ key e, E key = some e → e.deadline = none

theorem permanent_keyspace {E : Dataset} (h : E.Permanent) (t : Instant) :
    E.keyspace.later t = E.keyspace := by
  funext key
  rw [Keyspace.later, Dataset.keyspace]
  cases he : E key with
  | none => rfl
  | some e =>
    rw [Option.map_some, Option.bind_some, Item.still, Entry.item, h key e he]
    rfl

/-- From the instant on, the live entries are those of the dataset. -/
structure Lasts (t : Instant) (s : Store) (E : Dataset) : Prop where
  inv : s.Inv StoredValue.WellFormed
  live : ∀ t', t ≤ t' → s.live t' = E
  permanent : E.Permanent

section Lasts

variable {t t' : Instant} {s : Store} {E : Dataset}

theorem lasts_of_live (hs : s.Inv StoredValue.WellFormed) (hE : E.Permanent) (h : s.live t = E) :
    Lasts t s E := by
  refine ⟨hs, fun t' ht => ?_, hE⟩
  funext key
  rw [Store.live_later s ht, h]
  cases he : E key with
  | none => rfl
  | some e => rw [Option.filter_some, hE key e he]; rfl

theorem Lasts.shows (h : Lasts t s E) : Shows t s E.keyspace :=
  ⟨h.inv, fun t' ht => by rw [permanent_keyspace h.permanent, Store.keyspace, h.live t' ht]⟩

theorem Lasts.later (h : Lasts t s E) (ht : t ≤ t') : Lasts t' s E :=
  ⟨h.inv, fun u hu => h.live u (Nat.le_trans ht hu), h.permanent⟩

theorem lasts_empty (t : Instant) : Lasts t Store.empty fun _ => none :=
  ⟨Store.inv_empty _, fun t' _ => Store.live_empty t', fun _ _ h => by cases h⟩

end Lasts

section Turns

variable {F : FloatText}

theorem inv_turn (turn : Turn) {s : Store} (hs : s.Inv StoredValue.WellFormed) :
    (turn.run F s).2.Inv StoredValue.WellFormed :=
  (request_answered (F := F) (shows_keyspace hs turn.now.instant) turn (Nat.le_refl _)).2

/-- Where no deadline is set, no live entry gets one. -/
theorem permanent_execute (ord : IterOrder) (info : Bytes) (now : Reading) {args : List Value}
    {cmd : Command} (hparse : tryFrom F args = .ok cmd) (hdeadline : cmd.setsDeadline = false)
    {s : Store} (hs : s.Inv StoredValue.WellFormed) (h : (s.live now.instant).Permanent) :
    (((cmd.execute F ord info).runAt now s).2.live now.instant).Permanent := by
  cases hwhole : cmd.isWhole with
  | false =>
    intro key e he
    have hwithin := within_execute Closed.wellFormed F ord info cmd hwhole fun k hk =>
      absurd hk ((tryFrom_named hparse).1 k)
    cases hd : e.deadline with
    | none => rfl
    | some d =>
      rcases (Within.effect now hwithin hs).deadline key e d he hd with ⟨e₀, he₀, hd₀⟩ | ⟨hset, -⟩
      · rw [h key e₀ he₀] at hd₀
        cases hd₀
      · have hsets : cmd.setsDeadline = true := hset
        rw [hdeadline] at hsets
        cases hsets
  | true =>
    cases cmd with
    | del ks =>
      have hm := handleDel_run now s ks
      intro key e he
      rw [Command.execute, hm, Store.live_forget] at he
      split at he
      · cases he
      · exact h key e he
    | keys pattern =>
      by_cases hpat : pattern = Str.lit "*"
      · rw [Command.execute, hpat, handleKeys_run, Store.live_evicted hs]
        exact h
      · rw [Command.execute, handleKeys, if_pos hpat, runAt_pure]
        exact h
    | flushAll =>
      intro key e he
      rw [Command.execute, handleFlushall_run, Store.live_empty] at he
      cases he
    | _ => cases hwhole

theorem permanent_turn (turn : Turn) (hlast : Lasting F turn.frame) {s : Store}
    (hs : s.Inv StoredValue.WellFormed) (h : (s.live turn.now.instant).Permanent) :
    ((turn.run F s).2.live turn.now.instant).Permanent := by
  rcases request_cases F turn.frame with ⟨args, cmd, hframe, hcmd⟩ | ⟨reply, hrejected⟩
  · rw [run_parsed F ⟨args, hframe, hcmd⟩]
    exact permanent_execute turn.ord turn.info turn.now hcmd
      (hlast.noDeadline cmd ⟨args, hframe, hcmd⟩) hs h
  · rw [Turn.run, hrejected.respond]
    exact h

theorem mirror_self (E : Dataset) (key : Str) : Mirror (E key) (E key) := by
  cases E key with
  | none => exact .absent
  | some e => exact .present e.value rfl

theorem eq_of_mirror {E E' : Dataset} (hE : E.Permanent) (h : ∀ key, Mirror (E key) (E' key)) :
    E' = E := by
  funext key
  have hkey := h key
  cases he : E key with
  | none =>
    cases he' : E' key with
    | none => rfl
    | some e' =>
      rw [he, he'] at hkey
      cases hkey
  | some e =>
    obtain ⟨v, d⟩ := e
    obtain rfl : d = none := hE key _ he
    rw [he] at hkey
    exact hkey.permanent

/-- A logged request does the same to one dataset in two stores, at two times. -/
theorem turn_same (turn turn' : Turn) (hframe : turn'.frame = turn.frame)
    (hlog : (logEntry turn.frame).isSome) (hlast : Lasting F turn.frame) {s s' : Store}
    (hs : s.Inv StoredValue.WellFormed) (hs' : s'.Inv StoredValue.WellFormed)
    (hE : (s.live turn.now.instant).Permanent)
    (h : s'.live turn'.now.instant = s.live turn.now.instant) :
    (turn'.run F s').2.live turn'.now.instant = (turn.run F s).2.live turn.now.instant := by
  rcases request_cases F turn.frame with ⟨args, cmd, hargs, hcmd⟩ | ⟨reply, hrejected⟩
  · have hparses : ParsesTo F turn.frame cmd := ⟨args, hargs, hcmd⟩
    have hwrite : cmd.isLogged = true := by
      by_contra hw
      rw [hargs, logEntry_parsed hcmd, if_neg hw] at hlog
      cases hlog
    have hpop : cmd.name ≠ "SPOP" := by
      obtain ⟨-, b, rest, rfl, hupper⟩ := tryFrom_named hcmd
      intro hname
      exact hlast.noPop (by rw [hargs, IsSPop, hupper, hname])
    apply eq_of_mirror (permanent_turn turn hlast hs hE)
    intro key
    have hinv : s.Inv fun _ => True := ⟨hs.deadlines, fun _ _ _ => trivial⟩
    have hinv' : s'.Inv fun _ => True := ⟨hs'.deadlines, fun _ _ _ => trivial⟩
    rw [run_parsed F hparses, run_parsed F (hframe ▸ hparses),
      execute_process F turn'.ord turn.ord turn'.info turn.info cmd hwrite hpop]
    cases hrep : cmd.replaces key with
    | true => exact replace_execute F turn.ord turn.info turn.now turn'.now hinv hinv' hrep
    | false =>
      refine mirror_execute F turn.ord turn.info turn.now turn'.now hinv hinv' hwrite hpop ?_ hrep
      rw [h]
      exact mirror_self _ key
  · rw [Turn.run, Turn.run, hframe, hrejected.respond, hrejected.respond]
    exact h

end Turns

/-! ### What a log means -/

section Effect

variable (F : FloatText)

/-- The dataset that a log builds, whenever it is replayed. -/
def effect (log : List Value) : Dataset :=
  (runTurns F (replayTurns .sorted [] ⟨0, 0⟩ log) Store.empty).live 0

theorem effect_nil : effect F [] = fun _ => none := Store.live_empty 0

variable {F}

theorem replayed_append (ord : IterOrder) (info : Bytes) (now : Reading) (log : List Value)
    (frame : Value) : runTurns F (replayTurns ord info now (log ++ [frame])) Store.empty =
      ((⟨frame, ord, info, now⟩ : Turn).run F
        (runTurns F (replayTurns ord info now log) Store.empty)).2 := by
  rw [replayTurns, List.map_append, runTurns_append]
  rfl

/-- Every replay of the log holds its effect. -/
theorem replayed_lasts (ord : IterOrder) (info : Bytes) (now : Reading) {log : List Value}
    (hlog : ∀ v ∈ log, logEntry v = some v) (hlast : ∀ v ∈ log, Lasting F v) :
    Lasts now.instant (runTurns F (replayTurns ord info now log) Store.empty) (effect F log) := by
  induction log using List.reverseRecOn generalizing ord info now with
  | nil =>
    rw [effect_nil]
    exact lasts_empty now.instant
  | append_singleton log v ih =>
    have hv : v ∈ log ++ [v] := List.mem_append_right _ (List.mem_singleton_self v)
    have hbefore := fun ord info now => ih ord info now
      (fun u hu => hlog u (List.mem_append_left _ hu))
      fun u hu => hlast u (List.mem_append_left _ hu)
    have hsome : (logEntry v).isSome := by
      rw [hlog v hv]
      rfl
    have hnow := hbefore ord info now
    -- The replay at the zero of the clock is the one that `effect` speaks of.
    have hzero : Lasts 0 (runTurns F (replayTurns .sorted [] ⟨0, 0⟩ log) Store.empty)
        (effect F log) := hbefore .sorted [] ⟨0, 0⟩
    rw [replayed_append, effect, replayed_append]
    refine lasts_of_live (inv_turn _ hnow.inv) ?_ ?_
    · exact permanent_turn ⟨v, .sorted, [], ⟨0, 0⟩⟩ (hlast v hv) hzero.inv hzero.permanent
    · exact turn_same ⟨v, .sorted, [], ⟨0, 0⟩⟩ ⟨v, ord, info, now⟩ rfl hsome (hlast v hv)
        hzero.inv hnow.inv hzero.permanent (hnow.live now.instant (Nat.le_refl _))

/-- A request turns the effect of what was logged before it into that of the log
with its own entry. -/
theorem request_lasts {turn : Turn} {t : Instant} {s : Store} {log : List Value}
    (hlog : ∀ v ∈ log, logEntry v = some v) (hlast : ∀ v ∈ log, Lasting F v)
    (hturn : Lasting F turn.frame) (h : Lasts t s (effect F log)) (ht : t ≤ turn.now.instant) :
    Lasts turn.now.instant (turn.run F s).2
      (effect F (log ++ (logEntry turn.frame).toList)) := by
  have hnow := h.later ht
  have hlive := hnow.live _ (Nat.le_refl turn.now.instant)
  cases hentry : logEntry turn.frame with
  | none =>
    rw [Option.toList_none, List.append_nil]
    refine lasts_of_live (inv_turn turn hnow.inv) hnow.permanent ?_
    rw [← hlive]
    exact respond_unlogged F turn.ord turn.info turn.now turn.frame hentry
      ⟨hnow.inv.deadlines, fun _ _ _ => trivial⟩
  | some entry =>
    obtain rfl := logEntry_eq hentry
    have hzero : Lasts 0 _ (effect F log) := replayed_lasts .sorted [] ⟨0, 0⟩ hlog hlast
    have hsome : (logEntry turn.frame).isSome := by
      rw [hentry]
      rfl
    rw [Option.toList_some, effect, replayed_append]
    refine lasts_of_live (inv_turn turn hnow.inv) ?_ ?_
    · exact permanent_turn ⟨turn.frame, .sorted, [], ⟨0, 0⟩⟩ hturn hzero.inv hzero.permanent
    · exact turn_same ⟨turn.frame, .sorted, [], ⟨0, 0⟩⟩ turn rfl hsome hturn hzero.inv hnow.inv
        hzero.permanent hlive

end Effect

/-! ### What is promised -/

/-- What clients see, what a new process would find, and the keyspaces that the
entries in the queue will make it find, one after the other. -/
structure Journal where
  current : Keyspace
  saved : Keyspace
  pending : List Keyspace

inductive Entered where
  | answered (e : Exchange)
  | appended
  | started (r : Except Panic (Except Str Unit))

inductive Journal.Sees (F : FloatText) : Journal → Entered → Journal → Prop
  | read {J : Journal} {e : Exchange} (hlog : logEntry e.1.frame = none)
    (h : J.current.Answers F e J.current) : Sees F J (.answered e) J
  | write {J : Journal} {e : Exchange} {D : Keyspace} (hlog : (logEntry e.1.frame).isSome)
    (h : J.current.Answers F e D) :
    Sees F J (.answered e) ⟨D, J.saved, J.pending ++ [D]⟩
  | appended {D S : Keyspace} {pending : List Keyspace} {J : Keyspace} :
    Sees F ⟨J, S, D :: pending⟩ .appended ⟨J, D, pending⟩
  | started {J : Journal} : Sees F J (.started (.ok (.ok ()))) ⟨J.saved, J.saved, []⟩

/-! ### The server and its log -/

structure LogHost where
  store : Store
  fs : FileSystem
  manager : PersistenceManager
  queue : List Value

inductive LogIncident where
  | request (turn : Turn)
  | evict (now : Reading)
  | append (now : Reading)
  | restart (now : Reading) (ord : IterOrder) (info : Bytes)

namespace LogHost

variable (F : FloatText) (config : PersistenceConfig)

/-- A process that starts on the files; the queue of the last one is gone. -/
def start (now : Reading) (ord : IterOrder) (info : Bytes) (fs : FileSystem) :
    Except Panic (Except Str Unit) × LogHost :=
  let opened := PersistenceManager.new config fs
  let loaded := (opened.1.loadOnStartup F ord info opened.2).runAt now Store.empty
  (loaded.1, ⟨loaded.2, opened.2, opened.1, []⟩)

/-- The files of a process that dies within its next append, after some bytes. -/
def dying (h : LogHost) (written : ℕ) : FileSystem :=
  match h.manager.aofWriter, h.queue with
  | some w, command :: _ => h.fs.write w.file ((encode command).take written)
  | _, _ => h.fs

end LogHost

namespace LogIncident

def now : LogIncident → Reading
  | request turn => turn.now
  | evict now | append now | restart now _ _ => now

/-- `start_aof_processor` takes one command from the channel at a time. -/
def step (F : FloatText) (config : PersistenceConfig) (h : LogHost) :
    LogIncident → Option Entered × LogHost
  | request turn => (some (.answered (turn, (turn.run F h.store).1)),
      { h with
        store := (turn.run F h.store).2
        queue := h.queue ++ (logEntry turn.frame).toList })
  | evict now => (none, { h with store := (Store.evictExpired.runAt now h.store).2 })
  | append _ =>
    match h.queue with
    | [] => (none, h)
    | command :: queue =>
      (some .appended, { h with fs := h.manager.append [command] h.fs, queue := queue })
  | restart now ord info =>
    (some (.started (LogHost.start F config now ord info h.fs).1),
      (LogHost.start F config now ord info h.fs).2)

def Lasting (F : FloatText) : LogIncident → Prop
  | request turn => FireRedis.Lasting F turn.frame
  | _ => True

end LogIncident

/-! ### Runs -/

section Runs

variable {F : FloatText} {config : PersistenceConfig}

/-- The keyspaces that the entries of a queue lead to, one after the other. -/
def upcoming (F : FloatText) : List Value → List Value → List Keyspace
  | _, [] => []
  | log, v :: queue => (effect F (log ++ [v])).keyspace :: upcoming F (log ++ [v]) queue

theorem upcoming_append (log queue : List Value) (v : Value) :
    upcoming F log (queue ++ [v]) =
      upcoming F log queue ++ [(effect F (log ++ (queue ++ [v]))).keyspace] := by
  induction queue generalizing log with
  | nil => rfl
  | cons u queue ih =>
    rw [List.cons_append, upcoming, upcoming, ih, List.append_assoc, List.cons_append]
    rfl

theorem length_upcoming (log queue : List Value) :
    (upcoming F log queue).length = queue.length := by
  induction queue generalizing log with
  | nil => rfl
  | cons v queue ih => rw [upcoming, List.length_cons, List.length_cons, ih]

/-- The file holds `log`, and the store the effect of log and queue. -/
structure LogKept (F : FloatText) (config : PersistenceConfig) (log : List Value) (t : Instant)
    (h : LogHost) (J : Journal) : Prop where
  entries : ∀ v ∈ log ++ h.queue, logEntry v = some v ∧ Lasting F v
  lasts : Lasts t h.store (effect F (log ++ h.queue))
  writer : ∃ w, h.manager = ⟨config, some w⟩ ∧ h.fs.names config.aofFile = some w.file
  file : h.fs.read config.aofFile = some (log.flatMap encode)
  journal : J = ⟨(effect F (log ++ h.queue)).keyspace, (effect F log).keyspace,
    upcoming F log h.queue⟩

/-- The start of an entry is not replayed. -/
theorem replay_begun (ord : IterOrder) (info : Bytes) (now : Reading) {fs : FileSystem}
    {path : PathBuf} {log : List Value} (hwire : ∀ v ∈ log, v.Wire)
    (hlog : ∀ v ∈ log, logEntry v = some v) {command : Value} (hcommand : command.Wire)
    {written : ℕ} (hpart : written < (encode command).length)
    (hread : fs.read path = some (log.flatMap encode ++ (encode command).take written)) :
    (replay F ord info fs path).runAt now Store.empty =
      (.ok log.length, runTurns F (replayTurns ord info now log) Store.empty) := by
  have hone : ∀ v ∈ [command], v.Wire := fun v hv => List.mem_singleton.mp hv ▸ hcommand
  have hnone : Incremental.wholeWithin encode [command] written = 0 := by
    rw [Incremental.wholeWithin_cons, if_neg (by omega)]
  have hpart : replayBytes (executeCommand F ord info) ((encode command).take written) =
      pure (.ok 0) := by
    have hcut := replayBytes_cut (executeCommand F ord info) [command] hone written
    rwa [hnone, List.flatMap_singleton, List.take_zero] at hcut
  have hbytes : replay F ord info fs path = do
      forM log (executeCommand F ord info)
      return log.length := by
    rw [replay, hread]
    simp only [replayBytes_append (executeCommand F ord info) log hwire, hpart, bind_assoc,
      pure_bind]
    rfl
  rw [hbytes, runAt_bind_ok now (forM_executeCommand F ord info now log hlog (Store.inv_empty _))]
  rfl

/-- A start succeeds and has the store that the replay of its file leaves. -/
theorem logStart_replayed (haof : config.aofEnabled = true) {fs : FileSystem} (now : Reading)
    (ord : IterOrder) (info : Bytes) {n : ℕ} {s : Store}
    (hreplay : (replay F ord info (AofWriter.new config.aofFile fs).2 config.aofFile).runAt now
      Store.empty = (.ok n, s)) :
    LogHost.start F config now ord info fs = (.ok (.ok ()),
      ⟨s, (AofWriter.new config.aofFile fs).2, ⟨config, some (AofWriter.new config.aofFile fs).1⟩,
        []⟩) := by
  have hfound : (config.aofEnabled &&
      (AofWriter.new config.aofFile fs).2.found config.aofFile) = true := by
    rw [haof, FileSystem.found, (AofWriter.new_names config.aofFile fs).1]
    rfl
  have hload : ((PersistenceManager.new config fs).1.loadOnStartup F ord info
      (PersistenceManager.new config fs).2).runAt now Store.empty = (.ok (.ok ()), s) := by
    rw [PersistenceManager.new_aof haof, PersistenceManager.loadOnStartup, if_pos hfound,
      runAt_bind_ok now hreplay]
    rfl
  rw [LogHost.start, hload, PersistenceManager.new_aof haof]

/-- A process that starts replays the file and appends to it. -/
theorem logStart_run (haof : config.aofEnabled = true) {log : List Value}
    (hlog : ∀ v ∈ log, logEntry v = some v ∧ Lasting F v) {fs : FileSystem}
    (hread : (fs.read config.aofFile).getD [] = log.flatMap encode) (now : Reading)
    (ord : IterOrder) (info : Bytes) :
    (LogHost.start F config now ord info fs).1 = .ok (.ok ()) ∧
      LogKept F config log now.instant (LogHost.start F config now ord info fs).2
        ⟨(effect F log).keyspace, (effect F log).keyspace, []⟩ := by
  obtain ⟨hname, hfile⟩ := AofWriter.new_names config.aofFile fs
  have hread' : (AofWriter.new config.aofFile fs).2.read config.aofFile =
      some (log.flatMap encode) := by
    rw [FileSystem.read, hname, Option.map_some, hfile, hread]
  have hstart := logStart_replayed haof now ord info (replay_turns F ord info now
    (fun v hv => (hlog v hv).2.wire v (hlog v hv).1) (fun v hv => (hlog v hv).1) hread')
  have hlasts := replayed_lasts (F := F) ord info now (fun v hv => (hlog v hv).1)
    fun v hv => (hlog v hv).2
  rw [hstart]
  refine ⟨rfl, ?_, ?_, ⟨(AofWriter.new config.aofFile fs).1, rfl, hname⟩, hread', ?_⟩
  · rwa [List.append_nil]
  · rwa [List.append_nil]
  · rw [List.append_nil]
    rfl

/-- The next process of one that dies within an append replays the entries before it. -/
theorem logStart_begun (haof : config.aofEnabled = true) {log : List Value} {t : Instant}
    {h : LogHost} {J : Journal} (hJ : LogKept F config log t h J) {command : Value}
    {queue : List Value} (hqueue : h.queue = command :: queue) {written : ℕ}
    (hpart : written < (encode command).length) (now : Reading) (ord : IterOrder) (info : Bytes) :
    (LogHost.start F config now ord info (h.dying written)).1 = .ok (.ok ()) ∧
      (LogHost.start F config now ord info (h.dying written)).2.store.keyspace now.instant =
        J.saved := by
  obtain ⟨hentries, -, ⟨w, hmanager, hname⟩, hfile, rfl⟩ := hJ
  have hlog : ∀ v ∈ log, logEntry v = some v ∧ Lasting F v :=
    fun v hv => hentries v (List.mem_append_left _ hv)
  have hcommand := hentries command (by rw [hqueue]; simp)
  have hdying : h.dying written = h.fs.write w.file ((encode command).take written) := by
    rw [LogHost.dying, hmanager, hqueue]
  have hread : (h.dying written).read config.aofFile =
      some (log.flatMap encode ++ (encode command).take written) := by
    rw [FileSystem.read, hname, Option.map_some] at hfile
    rw [hdying, FileSystem.read, FileSystem.names_write, hname, Option.map_some,
      FileSystem.contents_write, if_pos rfl, Option.some.inj hfile]
  obtain ⟨hnew, hcontents⟩ := AofWriter.new_names config.aofFile (h.dying written)
  have hread' : (AofWriter.new config.aofFile (h.dying written)).2.read config.aofFile =
      some (log.flatMap encode ++ (encode command).take written) := by
    rw [FileSystem.read, hnew, Option.map_some, hcontents, hread]
    rfl
  have hstart := logStart_replayed haof now ord info (replay_begun (F := F) ord info now
    (fun v hv => (hlog v hv).2.wire v (hlog v hv).1) (fun v hv => (hlog v hv).1)
    (hcommand.2.wire command hcommand.1) hpart hread')
  have hlasts := replayed_lasts (F := F) ord info now (fun v hv => (hlog v hv).1)
    fun v hv => (hlog v hv).2
  rw [hstart]
  exact ⟨rfl, by rw [Store.keyspace, hlasts.live now.instant (Nat.le_refl _)]⟩

theorem logIncident_seen (haof : config.aofEnabled = true) (a : LogIncident)
    (hlast : a.Lasting F) {t : Instant} {h : LogHost} {J : Journal} {log : List Value}
    (hJ : LogKept F config log t h J) (ht : t ≤ a.now.instant) : ∃ J' log',
      Allows (Journal.Sees F) J (a.step F config h).1.toList J' ∧
        LogKept F config log' a.now.instant (a.step F config h).2 J' := by
  obtain ⟨hentries, hlasts, ⟨w, hmanager, hname⟩, hfile, rfl⟩ := hJ
  cases a with
  | request turn =>
    have hlasting : Lasting F turn.frame := hlast
    have hanswers := (request_answered (F := F) hlasts.shows turn ht).1
    have hafter := request_lasts (fun v hv => (hentries v hv).1) (fun v hv => (hentries v hv).2)
      hlasting hlasts ht
    rw [Store.keyspace, hafter.live _ (Nat.le_refl _)] at hanswers
    cases hlog : logEntry turn.frame with
    | none =>
      rw [hlog, Option.toList_none, List.append_nil] at hanswers hafter
      have hstep : (LogIncident.request turn).step F config h =
          (some (.answered (turn, (turn.run F h.store).1)),
            { h with store := (turn.run F h.store).2 }) := by
        rw [LogIncident.step, hlog, Option.toList_none, List.append_nil]
      rw [hstep]
      exact ⟨_, log, .cons (.read hlog hanswers) (.nil _), hentries, hafter, ⟨w, hmanager, hname⟩,
        hfile, rfl⟩
    | some entry =>
      have hentry := logEntry_eq hlog
      rw [hlog, Option.toList_some, List.append_assoc] at hanswers hafter
      have hstep : (LogIncident.request turn).step F config h =
          (some (.answered (turn, (turn.run F h.store).1)),
            { h with store := (turn.run F h.store).2, queue := h.queue ++ [entry] }) := by
        rw [LogIncident.step, hlog, Option.toList_some]
      rw [hstep]
      have hsome : (logEntry turn.frame).isSome := by
        rw [hlog]
        rfl
      refine ⟨_, log, .cons (.write hsome hanswers) (.nil _), ?_, hafter, ⟨w, hmanager, hname⟩,
        hfile, ?_⟩
      · intro v hv
        rw [← List.append_assoc] at hv
        rcases List.mem_append.mp hv with hv | hv
        · exact hentries v hv
        · rw [List.mem_singleton.mp hv, hentry]
          exact ⟨hentry ▸ hlog, hlasting⟩
      · rw [upcoming_append]
  | evict now =>
    have hsame : (Store.evictExpired.runAt now h.store).2 = h.store.evicted now.instant := by
      rw [evictExpired_snd]
    have hstep : (LogIncident.evict now).step F config h =
        (none, { h with store := h.store.evicted now.instant }) := by
      rw [LogIncident.step, hsame]
    rw [hstep]
    have hlive := Store.live_evicted hlasts.inv now.instant
    refine ⟨_, log, .nil _, hentries, ?_, ⟨w, hmanager, hname⟩, hfile, rfl⟩
    exact lasts_of_live (Store.inv_evicted hlasts.inv now.instant) hlasts.permanent
      (hlive.trans (hlasts.live _ ht))
  | append now =>
    cases hqueue : h.queue with
    | nil =>
      have hstep : (LogIncident.append now).step F config h = (none, h) := by
        rw [LogIncident.step, hqueue]
      rw [hstep]
      exact ⟨_, log, .nil _, hentries, hlasts.later ht, ⟨w, hmanager, hname⟩, hfile,
        by rw [hqueue]⟩
    | cons command queue =>
      have happend : h.manager.append [command] h.fs = h.fs.write w.file (encode command) := by
        rw [PersistenceManager.append, hmanager]
        rfl
      have hstep : (LogIncident.append now).step F config h =
          (some .appended,
            { h with fs := h.fs.write w.file (encode command), queue := queue }) := by
        rw [LogIncident.step, hqueue, ← happend]
      rw [hstep]
      rw [hqueue, List.append_cons] at hentries hlasts
      refine ⟨_, log ++ [command], .cons .appended (.nil _), hentries, hlasts.later ht,
        ⟨w, hmanager, hname⟩, ?_, ?_⟩
      · have hold : h.fs.contents w.file = log.flatMap encode := by
          have hread := hfile
          rw [FileSystem.read, hname, Option.map_some] at hread
          exact Option.some.inj hread
        rw [FileSystem.read, FileSystem.names_write, hname, Option.map_some,
          FileSystem.contents_write, if_pos rfl, hold, List.flatMap_append, List.flatMap_singleton]
      · rw [← List.append_cons]
  | restart now ord info =>
    have hlog : ∀ v ∈ log, logEntry v = some v ∧ Lasting F v :=
      fun v hv => hentries v (List.mem_append_left _ hv)
    have hread : (h.fs.read config.aofFile).getD [] = log.flatMap encode := by
      rw [hfile]
      rfl
    obtain ⟨hok, hkept⟩ := logStart_run haof hlog hread now ord info
    refine ⟨_, log, .cons ?_ (.nil _), hkept⟩
    show Journal.Sees F _ (.started (LogHost.start F config now ord info h.fs).1) _
    rw [hok]
    exact .started

end Runs

/-- From the first start on, through requests that set no deadline and pop from
no set, evictions, appends of whole entries and any number of restarts between
these: every start succeeds and gives back the keyspace as it was after the last
request whose entry was appended, and the replies are those of the keyspace. A
process that dies within an append leaves a file with which one more start does. -/
theorem log_survives_crashes (F : FloatText) (config : PersistenceConfig)
    (haof : config.aofEnabled = true) (fs : FileSystem)
    (hfirst : fs.names config.aofFile = none) (now : Reading) (ord : IterOrder) (info : Bytes)
    (incidents : List LogIncident)
    (hmono : incidents.Pairwise fun a b => a.now.instant ≤ b.now.instant)
    (hafter : ∀ a ∈ incidents, now.instant ≤ a.now.instant)
    (hlast : ∀ a ∈ incidents, a.Lasting F) :
    let host := (LogHost.start F config now ord info fs).2
    let run := events (LogIncident.step F config) incidents host
    ∃ J, Allows (Journal.Sees F) ⟨fun _ => none, fun _ => none, []⟩ run.1 J ∧
      J.pending.length = run.2.queue.length ∧
      (∀ t, now.instant ≤ t → (∀ a ∈ incidents, a.now.instant ≤ t) →
        run.2.store.keyspace t = J.current) ∧
      ∀ command queue, run.2.queue = command :: queue → ∀ written < (encode command).length,
        ∀ (now' : Reading) (ord' : IterOrder) (info' : Bytes),
          let started := LogHost.start F config now' ord' info' (run.2.dying written)
          started.1 = .ok (.ok ()) ∧ started.2.store.keyspace now'.instant = J.saved := by
  intro host run
  have hread : (fs.read config.aofFile).getD [] = ([] : List Value).flatMap encode := by
    rw [FileSystem.read, hfirst]
    rfl
  have hstart := (logStart_run (F := F) haof (fun v hv => absurd hv List.not_mem_nil) hread now ord
    info).2
  rw [effect_nil] at hstart
  have hstep : ∀ a ∈ incidents, ∀ (t : Instant) (h : LogHost) (J : Journal),
      (∃ log, LogKept F config log t h J) → t ≤ a.now.instant → ∃ J',
        Allows (Journal.Sees F) J (a.step F config h).1.toList J' ∧
          ∃ log, LogKept F config log a.now.instant (a.step F config h).2 J' := by
    rintro a ha t h J ⟨log, hJ⟩ ht
    obtain ⟨J', log', hallows, hJ'⟩ := logIncident_seen haof a (hlast a ha) hJ ht
    exact ⟨J', hallows, log', hJ'⟩
  obtain ⟨J, hallows, u, hu, log, hkept⟩ := allows_events hstep hmono hafter ⟨[], hstart⟩
  refine ⟨J, hallows, ?_, fun t hle hall => ?_, fun command queue hqueue written hpart now' ord'
    info' => logStart_begun haof hkept hqueue hpart now' ord' info'⟩
  · rw [hkept.journal]
    exact length_upcoming log run.2.queue
  · have hlater : u ≤ t := by
      rcases hu with rfl | ⟨a, ha, rfl⟩
      · exact hle
      · exact hall a ha
    rw [hkept.journal, Store.keyspace, hkept.lasts.live t hlater]

def setK (value : Bytes) (ms : UInt64) : Turn :=
  ⟨commandValue "SET" [Str.utf8 "k", value], .sorted, [], ⟨ms.toNat * 1000000, ms⟩⟩

theorem lasting_setK {value : Bytes} (ms : UInt64) (h : value.length ≤ isizeMax) :
    Lasting bitText (setK value ms).frame where
  noDeadline cmd hcmd := by
    obtain ⟨args, hargs, hparse⟩ := hcmd
    obtain rfl := Option.some.inj (Value.array.inj hargs)
    have hset : tryFrom bitText [bulk (Str.utf8 "SET"), bulk (Str.utf8 "k"), bulk value] =
        .ok (.set (Str.lit "k") value none .none) := rfl
    rw [← Except.ok.inj (hset.symm.trans hparse)]
    rfl
  noPop h := by
    have hname : toAsciiUppercase (Str.utf8 "SET") = Str.utf8 "SPOP" := h
    exact absurd hname (by decide +kernel)
  wire entry hentry := by
    rw [logEntry_eq hentry]
    have hlen : (2 + 1) * sizeOfValue ≤ isizeMax := by decide
    refine wire_commandValue "SET" _ (by decide) hlen fun b hb => ?_
    rcases List.mem_cons.mp hb with rfl | hb
    · decide
    · rw [List.mem_singleton.mp hb]
      exact h

/-- The second value is still in the queue when the process dies; the third is
being appended when the next one does. -/
theorem log_survives_crashes_queued :
    let host := (LogHost.start bitText .withAof ⟨0, 0⟩ .sorted [] .empty).2
    let incidents := [.request (setK (Str.utf8 "v") 1), .append ⟨2000000, 2⟩,
      .request (setK (Str.utf8 "w") 3), .restart ⟨4000000, 4⟩ .sorted [],
      .request (setK (Str.utf8 "x") 5)]
    let run := events (LogIncident.step bitText .withAof) incidents host
    ∃ J, Allows (Journal.Sees bitText) ⟨fun _ => none, fun _ => none, []⟩ run.1 J ∧
      J.current (Str.lit "k") = some ⟨.string (Str.utf8 "x"), none⟩ ∧
      J.saved (Str.lit "k") = some ⟨.string (Str.utf8 "v"), none⟩ ∧
      (LogHost.start bitText .withAof ⟨6000000, 6⟩ .sorted [] (run.2.dying 20)).1 =
        .ok (.ok ()) := by
  intro host incidents run
  obtain ⟨J, hallows, -, hcurrent, hbegun⟩ := log_survives_crashes bitText .withAof rfl .empty rfl
    ⟨0, 0⟩ .sorted [] incidents (by decide +kernel) (fun _ _ => Nat.zero_le _) (fun a ha => by
      simp only [incidents, List.mem_cons, List.not_mem_nil, or_false] at ha
      rcases ha with rfl | rfl | rfl | rfl | rfl
      · exact lasting_setK 1 (by decide)
      · trivial
      · exact lasting_setK 3 (by decide)
      · trivial
      · exact lasting_setK 5 (by decide))
  obtain ⟨hstarted, hsaved⟩ := hbegun (setK (Str.utf8 "x") 5).frame [] rfl 20 (by decide +kernel)
    ⟨6000000, 6⟩ .sorted []
  refine ⟨J, hallows, ?_, ?_, hstarted⟩
  · rw [← hcurrent 5000000 (Nat.zero_le _) (by decide +kernel)]
    rfl
  · rw [← hsaved]
    rfl

end FireRedis
