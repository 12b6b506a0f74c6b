import FireRedis.Persistence.Replay
import FireRedis.Server
import Mathlib.Logic.Relation

/-!
# From the connections to the file (persistence/manager.rs, start_aof_processor)

Connections send commands on one channel; the processor takes them off its
front and appends them. `logged` records what was sent, in order: the file holds
a prefix of it and the channel the rest.
-/

namespace FireRedis
open Incremental Relation

structure Pipeline where
  fs : FileSystem
  channel : List Value
  logged : List Value

namespace Pipeline

inductive Step (w : AofWriter) : Pipeline → Pipeline → Prop
  /-- `AofChannel::log` by some connection, with a write request it has decoded. -/
  | log (p : Pipeline) (connection : ℕ) (command : Value) (src rest : Bytes)
      (hdecode : decode src = (.ok (some command), rest))
      (hwrite : logEntry command = some command) :
      Step w p { p with channel := p.channel ++ [command], logged := p.logged ++ [command] }
  /-- `rx.recv` and `AofWriter::append`. -/
  | append (p : Pipeline) (command : Value) (channel : List Value)
      (hrecv : p.channel = command :: channel) :
      Step w p { p with fs := w.append command p.fs, channel := channel }

/-- File and channel together spell the commands sent. -/
structure Inv (w : AofWriter) (path : PathBuf) (p : Pipeline) : Prop where
  split : ∃ appended, p.logged = appended ++ p.channel ∧
    p.fs.contents w.file = appended.flatMap encode
  name : p.fs.names path = some w.file
  wire : ∀ v ∈ p.logged, v.Wire

theorem inv_step {w : AofWriter} {path : PathBuf} {p q : Pipeline} (hp : p.Inv w path)
    (h : Step w p q) : q.Inv w path := by
  obtain ⟨appended, hlogged, hfile⟩ := hp.split
  cases h with
  | log connection command src rest hdecode hwrite =>
    refine ⟨⟨appended, by simp [hlogged], hfile⟩, hp.name, fun v hv => ?_⟩
    rcases List.mem_append.mp hv with hv | hv
    · exact hp.wire v hv
    · rw [List.mem_singleton.mp hv]
      exact wire_of_decode hdecode
  | append command channel hrecv =>
    refine ⟨⟨appended ++ [command], by simp [hlogged, hrecv], ?_⟩, hp.name, hp.wire⟩
    simp [AofWriter.append, hfile]

theorem inv_run {w : AofWriter} {path : PathBuf} {p q : Pipeline} (hp : p.Inv w path)
    (h : ReflTransGen (Step w) p q) : q.Inv w path := by
  induction h with
  | refl => exact hp
  | tail _ hstep ih => exact inv_step ih hstep

/-- The pipeline that opens the log of an empty file or of none. -/
def start (path : PathBuf) (fs : FileSystem) : Pipeline := ⟨(AofWriter.new path fs).2, [], []⟩

theorem inv_start (path : PathBuf) (fs : FileSystem)
    (hempty : ∀ bytes, fs.read path = some bytes → bytes = []) :
    (start path fs).Inv (AofWriter.new path fs).1 path := by
  obtain ⟨hname, hfile⟩ := AofWriter.new_names path fs
  refine ⟨⟨[], rfl, ?_⟩, hname, by simp [start]⟩
  rw [start, hfile]
  cases hread : fs.read path with
  | none => rfl
  | some bytes => exact hempty bytes hread

/-- The file of a reachable pipeline, cut after `n` bytes, replays as the commands
sent whose encoding lies wholly before the cut, in the order they were sent. -/
theorem replay_cut (F : FloatText) (ord : IterOrder) (info : Bytes) (path : PathBuf)
    (fs : FileSystem) (hempty : ∀ bytes, fs.read path = some bytes → bytes = []) (p : Pipeline)
    (hreach : ReflTransGen (Step (AofWriter.new path fs).1) (start path fs) p) (n : ℕ) :
    ∃ file, p.fs.read path = some file ∧
      let c := wholeWithin encode p.logged (file.take n).length
      (∀ (m : Type → Type) [Monad m] [LawfulMonad m] (execute : Value → m Unit),
        replayBytes execute (file.take n) = do
          forM (p.logged.take c) execute
          return .ok c) ∧
      ∀ cut : FileSystem, cut.read path = some (file.take n) →
        replay F ord info cut path = do
          forM (p.logged.take c) (executeCommand F ord info)
          return c := by
  obtain ⟨⟨appended, hlogged, hfile⟩, hname, hwire⟩ := inv_run (inv_start path fs hempty) hreach
  refine ⟨appended.flatMap encode, ?_, ?_⟩
  · rw [FileSystem.read, hname, Option.map_some, hfile]
  · have hcut : (appended.flatMap encode).take n =
        (p.logged.flatMap encode).take ((appended.flatMap encode).take n).length := by
      rw [hlogged, List.flatMap_append, List.take_append_of_le_length (List.length_take_le' ..)]
      simp
    have hbytes : ∀ (m : Type → Type) [Monad m] [LawfulMonad m] (execute : Value → m Unit),
        replayBytes execute ((appended.flatMap encode).take n) = do
          forM (p.logged.take
            (wholeWithin encode p.logged ((appended.flatMap encode).take n).length)) execute
          return .ok (wholeWithin encode p.logged ((appended.flatMap encode).take n).length) := by
      intro m _ _ execute
      rw [hcut, replayBytes_cut execute p.logged hwire, ← hcut]
    refine ⟨hbytes, fun cut hread => ?_⟩
    rw [replay, hread]
    simp only [hbytes, bind_assoc, pure_bind]

/-- One SET appended, a second one still in the channel, and a cut in the first. -/
theorem replay_cut_torn :
    let path := Str.utf8 "a.aof"
    let set := commandValue "SET" [Str.utf8 "k", Str.utf8 "v"]
    let fs := ((AofWriter.new path .empty).1.append set (AofWriter.new path .empty).2)
    let c := wholeWithin encode [set, set] 7
    ∃ file, fs.read path = some file ∧ (file.take 7).length = 7 ∧
      (replayBytes (fun v => modify (· ++ [v])) (file.take 7) :
        StateM (List Value) (Except Panic ℕ)) = do
          forM ([set, set].take c) (fun v => modify (· ++ [v]))
          return .ok c := by
  intro path set fs c
  have hwire : set.Wire := wire_commandValue "SET" _ (by decide) (by decide) (by decide)
  have hdecode := inverts_wire set hwire []
  have hrun : ReflTransGen (Step (AofWriter.new path .empty).1) (start path .empty)
      ⟨fs, [set], [set, set]⟩ :=
    ((ReflTransGen.single (Step.log _ 0 set _ _ hdecode rfl)).tail
      (Step.log _ 1 set _ _ hdecode rfl)).tail (Step.append _ set [set] rfl)
  obtain ⟨file, hread, hbytes, -⟩ := replay_cut noFloats .sorted []
    path .empty (fun bytes h => by cases h) _ hrun 7
  have hlen : (file.take 7).length = 7 := by
    rw [← Option.some.inj hread]
    rfl
  rw [hlen] at hbytes
  exact ⟨file, hread, hlen, hbytes (StateM (List Value)) _⟩

end Pipeline

end FireRedis
