import FireRedis.Persistence.Aof
import FireRedis.Resp.RoundTrip

/-!
# Replaying a log that was cut

The queue between the connections and the file keeps the order of the commands:
file and queue together spell the commands sent. A file cut anywhere replays as
the commands that lie wholly before the cut, whatever they are executed by.
-/

namespace FireRedis
open Incremental

theorem wire_bulk (b : Bytes) (h : b.length ≤ isizeMax) : (bulk b).Wire := ⟨h, trivial, trivial⟩

theorem wire_commandValue (name : String) (args : List Bytes)
    (hname : (Str.utf8 name).length ≤ isizeMax)
    (hlen : (args.length + 1) * sizeOfValue ≤ isizeMax)
    (hargs : ∀ b ∈ args, b.length ≤ isizeMax) : (commandValue name args).Wire := by
  rw [commandValue, Value.wire_array, List.length_cons, List.length_map]
  refine ⟨hlen, fun v hv => ?_⟩
  rcases List.mem_cons.mp hv with rfl | hv
  · exact wire_bulk _ hname
  · obtain ⟨b, hb, rfl⟩ := List.mem_map.mp hv
    exact wire_bulk b (hargs b hb)

/-- What replay returns after `n` commands. -/
def replayOutcome (n : ℕ) : Stop UInt8 RespFault → Except Panic ℕ
  | .failed .capacityOverflow => .error .capacityOverflow
  | _ => .ok n

section Replay

variable {m : Type → Type} [Monad m] [LawfulMonad m] (execute : Value → m Unit)

theorem replayLoop_eq (bytes : Bytes) (fuel n : ℕ) (hf : bytes.length < fuel) :
    replayLoop execute fuel bytes n = do
      forM (drain decode bytes).1 execute
      return replayOutcome (n + (drain decode bytes).1.length) (drain decode bytes).2 := by
  induction bytes using drain_induction decode_lawful (by omega) generalizing fuel n with
  | frame bytes rest v hd ih =>
    have hlen := rest_lt decode_lawful (by omega) hd
    have hne : bytes ≠ [] := by
      rintro rfl
      exact Nat.not_lt_zero _ hlen
    obtain ⟨fuel, rfl⟩ : ∃ g, fuel = g + 1 := ⟨fuel - 1, by omega⟩
    rw [replayLoop, if_neg hne, hd, drain_frame decode_lawful (by omega) hd]
    simp only [List.forM_cons, bind_assoc, List.length_cons]
    rw [ih fuel (n + 1) (by omega),
      show n + 1 + (drain decode rest).1.length = n + ((drain decode rest).1.length + 1) by omega]
  | more bytes hd =>
    obtain ⟨fuel, rfl⟩ : ∃ g, fuel = g + 1 := ⟨fuel - 1, by omega⟩
    rw [replayLoop, hd, drain_more decode_lawful (b := bytes) (by rw [hd])]
    split <;> simp [replayOutcome, *]
  | fail bytes e hd =>
    have hne : bytes ≠ [] := by
      rintro rfl
      rw [show decode [] = (.ok none, []) from rfl] at hd
      cases hd
    obtain ⟨fuel, rfl⟩ : ∃ g, fuel = g + 1 := ⟨fuel - 1, by omega⟩
    rw [replayLoop, if_neg hne, hd, drain_fail (b := bytes) (e := e) (by rw [hd])]
    cases e <;> simp [replayOutcome]

theorem replayBytes_eq (bytes : Bytes) : replayBytes execute bytes = do
    forM (drain decode bytes).1 execute
    return replayOutcome (drain decode bytes).1.length (drain decode bytes).2 := by
  rw [replayBytes, replayLoop_eq execute bytes _ 0 (by omega), Nat.zero_add]

theorem replayBytes_cut (log : List Value) (hlog : ∀ v ∈ log, v.Wire) (n : ℕ) :
    replayBytes execute ((log.flatMap encode).take n) = do
      forM (log.take (wholeWithin encode log n)) execute
      return .ok (wholeWithin encode log n) := by
  obtain ⟨rest, hrest⟩ := drain_cut decode_lawful (by omega) inverts_wire log hlog n decode_nil
  rw [replayBytes_eq, hrest, List.length_take_of_le (wholeWithin_le encode log n)]
  rfl

theorem replayBytes_whole (log : List Value) (hlog : ∀ v ∈ log, v.Wire) :
    replayBytes execute (log.flatMap encode) = do
      forM log execute
      return .ok log.length := by
  have h := drain_encoded decode_lawful (by omega) inverts_wire log hlog []
  rw [List.append_nil, drain_more decode_lawful decode_nil, List.append_nil] at h
  rw [replayBytes_eq, h]
  rfl

end Replay

end FireRedis
