import FireRedis.Persistence.Rewrite

/-!
# What an interrupted rewrite leaves behind

A rewrite opens its temporary file to append to it. What an earlier rewrite has
left there comes first in the new log, so the log does not depend on it just
where nothing was left.
-/

namespace FireRedis
open Std

section Leftover

variable (F : FloatText) (ord : IterOrder) (now : Reading) (aofPath tempPath : PathBuf)

/-- A rewrite appends to what its temporary file holds already. -/
theorem rewriteAof_read (fs : FileSystem) (s : Store) :
    ∃ fs', (rewriteAof F ord aofPath tempPath fs).runAt now s =
        (.ok ((rewritten F ord now (s.evicted now.instant)).length, fs'),
          s.evicted now.instant) ∧
      fs'.read aofPath = some ((fs.read tempPath).getD [] ++
        (rewritten F ord now (s.evicted now.instant)).flatMap encode) := by
  obtain ⟨hname, hcontents⟩ := AofWriter.new_names tempPath fs
  show ∃ fs', StoreM.runAt (rewriteCommands F ord >>= fun commands => pure (commands.length,
    ((AofWriter.new tempPath fs).1.appendAll commands (AofWriter.new tempPath fs).2).rename
      tempPath aofPath)) now s = _ ∧ _
  rw [runAt_bind_ok now (rewriteCommands_run F ord now s)]
  refine ⟨_, rfl, ?_⟩
  have hwritten : ((AofWriter.new tempPath fs).2.write (AofWriter.new tempPath fs).1.file
      ((rewritten F ord now (s.evicted now.instant)).flatMap encode)).names tempPath =
        some (AofWriter.new tempPath fs).1.file := hname
  rw [AofWriter.appendAll_eq, FileSystem.read_rename _ hwritten, FileSystem.contents_write,
    if_pos rfl, hcontents]

/-- The log that a rewrite leaves, and what it replays to, are those of a rewrite
that finds no temporary file if and only if the file it finds is empty. -/
theorem rewrite_ignores_leftover (fs : FileSystem) (leftover : Bytes)
    (hleft : fs.read tempPath = some leftover) (s : Store) :
    ∃ n fs' fs₀ s', (rewriteAof F ord aofPath tempPath fs).runAt now s = (.ok (n, fs'), s') ∧
      (rewriteAof F ord aofPath tempPath (fs.remove tempPath)).runAt now s =
        (.ok (n, fs₀), s') ∧
      ((fs'.read aofPath = fs₀.read aofPath ∧ ∀ ord' info,
        replay F ord' info fs' aofPath = replay F ord' info fs₀ aofPath) ↔ leftover = []) := by
  obtain ⟨fs', hrun, hread⟩ := rewriteAof_read F ord now aofPath tempPath fs s
  obtain ⟨fs₀, hrun₀, hread₀⟩ :=
    rewriteAof_read F ord now aofPath tempPath (fs.remove tempPath) s
  rw [hleft, Option.getD_some] at hread
  rw [FileSystem.read_remove, Option.getD_none, List.nil_append] at hread₀
  refine ⟨_, fs', fs₀, _, hrun, hrun₀, ⟨fun ⟨hsame, _⟩ => ?_, ?_⟩⟩
  · rw [hread, hread₀] at hsame
    exact List.append_left_eq_self.mp (Option.some.inj hsame)
  · rintro rfl
    have hsame : fs'.read aofPath = fs₀.read aofPath := hread.trans hread₀.symm
    refine ⟨hsame, fun ord' info => ?_⟩
    rw [replay, replay, hsame]

end Leftover

/-! ### A list of one element -/

namespace Leftover

def aofPath : PathBuf := Str.utf8 "a.aof"

def tempPath : PathBuf := Str.utf8 "a.aof.tmp"

def command : Value := commandValue "RPUSH" [Str.utf8 "l", Str.utf8 "x"]

/-- The store that the command makes. -/
def stored : Store := Store.empty.put (Str.lit "l") (some (.list [Str.utf8 "x"])) none

/-- A rewrite was interrupted after the commands. -/
def interrupted (commands : List Value) : FileSystem :=
  let opened := AofWriter.new tempPath .empty
  opened.1.appendAll commands opened.2

end Leftover

open Leftover

theorem rewrite_ignores_leftover_empty : ∃ fs' fs₀ s',
    (rewriteAof noFloats .sorted aofPath tempPath (interrupted [])).runAt ⟨0, 0⟩ stored =
        (.ok (1, fs'), s') ∧
      (rewriteAof noFloats .sorted aofPath tempPath
        ((interrupted []).remove tempPath)).runAt ⟨0, 0⟩ stored = (.ok (1, fs₀), s') ∧
      fs'.read aofPath = fs₀.read aofPath ∧ fs'.read aofPath = some (encode command) := by
  obtain ⟨n, fs', fs₀, s', hrun, hrun₀, hiff⟩ := rewrite_ignores_leftover noFloats .sorted
    ⟨0, 0⟩ aofPath tempPath (interrupted []) [] rfl stored
  have hsame := (hiff.mpr rfl).1
  have hread : (((rewriteAof noFloats .sorted aofPath tempPath (interrupted [])).runAt ⟨0, 0⟩
      stored).1.map fun r => (r.1, r.2.read aofPath)) = .ok (1, some (encode command)) := rfl
  rw [hrun] at hread
  obtain ⟨rfl, hbytes⟩ := Prod.mk.inj (Except.ok.inj hread)
  exact ⟨fs', fs₀, s', hrun, hrun₀, hsame, hbytes⟩

theorem leftover_replayed : ∃ fs' fs₀,
    (rewriteAof noFloats .sorted aofPath tempPath (interrupted [command])).runAt ⟨0, 0⟩
        Store.empty = (.ok (0, fs'), Store.empty) ∧
      (rewriteAof noFloats .sorted aofPath tempPath
        ((interrupted [command]).remove tempPath)).runAt ⟨0, 0⟩ Store.empty =
          (.ok (0, fs₀), Store.empty) ∧
      fs'.read aofPath = some (encode command) ∧ fs₀.read aofPath = some [] ∧
      ((replay noFloats .sorted [] fs' aofPath).runAt ⟨0, 0⟩ Store.empty).2.live 0
        (Str.lit "l") = some ⟨.list [Str.utf8 "x"], none⟩ ∧
      ((replay noFloats .sorted [] fs₀ aofPath).runAt ⟨0, 0⟩ Store.empty).2.live 0
        (Str.lit "l") = none :=
  ⟨_, _, rfl, rfl, rfl, rfl, rfl, rfl⟩

end FireRedis
