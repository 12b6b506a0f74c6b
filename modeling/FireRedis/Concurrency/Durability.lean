import FireRedis.Concurrency.Machine

/-!
# What an acknowledged write can rely on

The reply to a write is sent when the command has been executed, whether or not
the AOF processor has come to it. With `Always` every command that the processor
has finished with is on the disk, and every acknowledged write is there, in its
hands or still on the channel. The writes and syncs of the processor do not fail
here; the code only reports their failures.
-/

namespace FireRedis
open System Machine

/-- With `Always`, the synced file replays as the commands sent first. The one in
the hands of the processor, if any, and those on the channel are the others sent.
Every acknowledged write is among those sent, each at a place of its own, and is
on the disk when the processor has nothing left to do. -/
theorem acked_on_the_way (F : FloatText) {ι : Type} [DecidableEq ι] (path : PathBuf)
    (fs : FileSystem) (hempty : ∀ bytes, fs.read path = some bytes → bytes = []) (m : Machine ι)
    (h : Runs (step F .always (AofWriter.new path fs).1) (fun _ _ => True) (start path fs) m) :
    ∃ durable, m.synced = durable.flatMap encode ∧
      m.logged = durable ++ m.hand.unsynced ++ m.hand.unwritten ++ m.channel ∧
      (∀ (ord : IterOrder) (info : Bytes) (disk : FileSystem), disk.read path = some m.synced →
        replay F ord info disk path = do
          forM durable (executeCommand F ord info)
          return durable.length) ∧
      (∀ r ∈ m.acked, Placed m.logged r) ∧
      (m.acked.filterMap Prod.snd).Nodup ∧
      (m.hand = .empty → m.channel = [] → ∀ r ∈ m.acked, Placed durable r) := by
  have hm : m.Inv .always (AofWriter.new path fs).1 path :=
    runs_induction (start_inv path fs hempty) (fun _ _ _ hm _ hstep => step_inv hm hstep) h
  obtain ⟨durable, unsynced, hlogged, -, hsynced, halways⟩ := hm.spelled
  rw [halways rfl] at hlogged
  refine ⟨durable, hsynced, hlogged, fun ord info disk hread => ?_, hm.tickets.answered,
    hm.tickets.once, fun hhand hchannel r hr => ?_⟩
  · have hwire : ∀ v ∈ durable, v.Wire := by
      intro v hv
      apply hm.wire v
      rw [hlogged]
      simp only [List.mem_append]
      exact Or.inl (Or.inl (Or.inl hv))
    rw [hsynced] at hread
    exact replay_log F ord info disk path durable hwire hread
  · have hplaced := hm.tickets.answered r hr
    rw [hlogged, hhand, hchannel] at hplaced
    simpa [Hand.unsynced, Hand.unwritten] using hplaced

/-! ### One SET -/

namespace Durability

def path : PathBuf := Str.utf8 "a.aof"

def setRequest : Value := commandValue "SET" [Str.utf8 "k", Str.utf8 "v"]

/-- A client sends SET and has its reply. -/
def served : List (Action Unit) :=
  [.take () (encode setRequest), .execute () .sorted [] ⟨0, 0⟩, .reply ()]

abbrev stepAlways : Machine Unit → Action Unit → Option (Machine Unit) :=
  step noFloats .always (AofWriter.new path .empty).1

end Durability

open Durability

theorem acked_on_the_way_synced : ∃ m : Machine Unit,
    Runs (step noFloats .always (AofWriter.new path .empty).1) (fun _ _ => True)
      (start path .empty) m ∧ m.acked = [(setRequest, some 0)] ∧ m.synced = encode setRequest := by
  have hallowed : Allowed stepAlways (fun _ _ => True) (served ++ [.receive, .write, .sync])
      (start path .empty) := allowed_all _ _
  have hruns := runs_follow hallowed rfl
  obtain ⟨durable, hsynced, hlogged, -⟩ :=
    acked_on_the_way noFloats path .empty (fun bytes hread => by cases hread) _ hruns
  have hall : [setRequest] = durable ++ [] ++ [] ++ [] := hlogged
  rw [List.append_nil, List.append_nil, List.append_nil] at hall
  obtain rfl : durable = [setRequest] := hall.symm
  exact ⟨_, hruns, rfl, hsynced⟩

theorem acked_before_synced : ∃ m : Machine Unit,
    Runs (step noFloats .always (AofWriter.new path .empty).1) (fun _ _ => True)
      (start path .empty) m ∧
    m.acked = [(setRequest, some 0)] ∧ m.logged = [setRequest] ∧ m.synced = [] := by
  have hallowed : Allowed stepAlways (fun _ _ => True) served (start path .empty) :=
    allowed_all _ _
  have hruns := runs_follow hallowed rfl
  exact ⟨_, hruns, rfl, rfl, rfl⟩

end FireRedis
