import FireRedis.Persistence.Records
import FireRedis.Store.Equivalence

/-!
# Loading a saved file

On a file of the serializer the loader skips the header and then does, record
by record, what `loadRecords` does. A save evicts and writes one record for each
live key, so a load at the same clock reading gives every key its value and its
deadline again.
-/

namespace FireRedis
open Std RdbSerializer RdbDeserializer

/-! ### The file as a list of records -/

/-- The bytes of a file with these records. -/
def fileBytes (F : FloatText) (ord : IterOrder) (ctime : UInt64) (keys expiring : ℕ)
    (records : List Record) : Bytes :=
  header ctime ++ resize keys expiring ++ records.flatMap (writeRecord F ord) ++ trailer

/-- How the loop goes on after a turn, with `next` as its remaining turns. -/
def follow : Except LoadFault LoadStep → StoreM (Except Str Unit) → StoreM (Except Str Unit)
  | .error (.panic p), _ => .fault p
  | .error (.invalidFormat msg), _ => return .error msg
  | .ok .eof, _ => return .ok ()
  | .ok step, next => do
    step.act
    next

theorem follow_ok {step : LoadStep} (h : step ≠ .eof) (next : StoreM (Except Str Unit)) :
    follow (.ok step) next = step.act >>= fun _ => next := by
  cases step with
  | eof => exact absurd rfl h
  | _ => rfl

/-- The loader on records that are read back. -/
def loadRecords (F : FloatText) (ord : IterOrder) (currentTime : UInt64) :
    List Record → StoreM (Except Str Unit)
  | [] => return .ok ()
  | r :: records =>
    follow (recordStep F ord currentTime r) (loadRecords F ord currentTime records)

section Loop

variable (F : FloatText) (ord : IterOrder) (currentTime : UInt64)

/-- The loop where `rest` is still to be read. -/
def loadRest (front rest : Bytes) (fuel : ℕ) : StoreM (Except Str Unit) :=
  loadLoop F currentTime (front ++ rest) fuel front.length

theorem loadRest_cons {enc : Bytes} {r : Except LoadFault LoadStep}
    (hr : Reader.Reads isizeMax (loadStep F currentTime) enc r) (hpos : 0 < enc.length)
    (front rest : Bytes) (hlen : (front ++ enc ++ rest).length ≤ isizeMax) (fuel : ℕ) :
    loadRest F currentTime front (enc ++ rest) (fuel + 1) =
      follow r (loadRest F currentTime (front ++ enc) rest fuel) := by
  have hlt : ¬ front.length ≥ (front ++ enc ++ rest).length := by
    simp only [List.length_append]
    omega
  have hnext : loadRest F currentTime (front ++ enc) rest fuel =
      loadLoop F currentTime (front ++ enc ++ rest) fuel (front.length + enc.length) := by
    rw [loadRest, List.length_append]
  rw [hnext, loadRest, ← List.append_assoc, loadLoop, if_neg hlt, hr front rest hlen]
  rcases r with (msg | p) | step
  · rfl
  · rfl
  · cases step <;> rfl

theorem writeRecord_pos (r : Record) : 0 < (writeRecord F ord r).length := by
  rw [writeRecord, List.length_append, List.length_append, List.length_cons]
  omega

theorem reads_trailer :
    Reader.Reads isizeMax (loadStep F currentTime) [opEof] (.ok .eof) := by
  have henc : [opEof] = [opEof] ++ [] := rfl
  rw [henc, loadStep]
  apply Reader.Reads.andThen (Reader.Reads.byteOr _ _)
  exact Reader.Reads.pure LoadStep.eof

theorem loadRest_records (records : List Record) (hfits : ∀ r ∈ records, r.value.Fits)
    (front : Bytes) (fuel : ℕ) (hfuel : records.length < fuel)
    (hlen : (front ++ (records.flatMap (writeRecord F ord) ++ trailer)).length ≤ isizeMax) :
    loadRest F currentTime front (records.flatMap (writeRecord F ord) ++ trailer) fuel =
      loadRecords F ord currentTime records := by
  induction records generalizing front fuel with
  | nil =>
    obtain ⟨fuel, rfl⟩ : ∃ n, fuel = n + 1 := ⟨fuel - 1, by simp at hfuel; omega⟩
    have htrailer : trailer = [opEof] ++ List.replicate 8 0 := rfl
    rw [List.flatMap_nil, List.nil_append, htrailer] at hlen ⊢
    rw [loadRest_cons F currentTime (reads_trailer F currentTime) (by simp) front _
      (by simpa using hlen)]
    rfl
  | cons r records ih =>
    obtain ⟨fuel, rfl⟩ : ∃ n, fuel = n + 1 := ⟨fuel - 1, by simp at hfuel; omega⟩
    have hread := reads_record F ord currentTime r (hfits r (List.mem_cons_self ..))
    have htail := ih (fun r hr => hfits r (List.mem_cons_of_mem _ hr))
      (front ++ writeRecord F ord r) fuel (by simpa using hfuel)
      (by simpa [List.append_assoc] using hlen)
    rw [List.flatMap_cons, List.append_assoc] at hlen ⊢
    rw [loadRest_cons F currentTime hread (writeRecord_pos F ord r) front _
      (by simpa [List.append_assoc] using hlen), htail, loadRecords]

/-! ### The header -/

theorem loadRest_skip {enc : Bytes}
    (hr : Reader.Reads isizeMax (loadStep F currentTime) enc (.ok .skip)) (hpos : 0 < enc.length)
    (front rest : Bytes) (hlen : (front ++ (enc ++ rest)).length ≤ isizeMax) (fuel : ℕ) :
    loadRest F currentTime front (enc ++ rest) (fuel + 1) =
      loadRest F currentTime (front ++ enc) rest fuel := by
  rw [← List.append_assoc] at hlen
  rw [loadRest_cons F currentTime hr hpos front rest hlen]
  rfl

theorem reads_aux (key value : Bytes) :
    Reader.Reads isizeMax (loadStep F currentTime) (writeAux key value) (.ok .skip) := by
  have henc : writeAux key value =
      [opAux] ++ (writeBytes key ++ (writeBytes value ++ [])) := by simp [writeAux]
  rw [henc, loadStep]
  apply Reader.Reads.andThen (Reader.Reads.byteOr _ _)
  apply Reader.Reads.andThen (reads_string key)
  apply Reader.Reads.andThen (reads_string value)
  exact Reader.Reads.pure LoadStep.skip

theorem reads_select :
    Reader.Reads isizeMax (loadStep F currentTime) (opSelectDb :: writeLength 0)
      (.ok .skip) := by
  have henc : opSelectDb :: writeLength 0 = [opSelectDb] ++ (writeLength 0 ++ []) := by simp
  rw [henc, loadStep]
  apply Reader.Reads.andThen (Reader.Reads.byteOr _ _)
  apply Reader.Reads.andThen (reads_length isizeMax 0)
  exact Reader.Reads.pure LoadStep.skip

theorem reads_resize (keys expiring : ℕ) :
    Reader.Reads isizeMax (loadStep F currentTime) (resize keys expiring) (.ok .skip) := by
  have henc : resize keys expiring = [opResizeDb] ++ (writeLength (UInt64.ofNat keys) ++
      (writeLength (UInt64.ofNat expiring) ++ [])) := by simp [resize]
  rw [henc, loadStep]
  apply Reader.Reads.andThen (Reader.Reads.byteOr _ _)
  apply Reader.Reads.andThen (reads_length isizeMax (UInt64.ofNat keys))
  apply Reader.Reads.andThen (reads_length isizeMax (UInt64.ofNat expiring))
  exact Reader.Reads.pure LoadStep.skip

end Loop

theorem load_file (F : FloatText) (ord : IterOrder) (ctime : UInt64) (keys expiring : ℕ)
    (records : List Record) (hfits : ∀ r ∈ records, r.value.Fits)
    (hlen : (fileBytes F ord ctime keys expiring records).length ≤ isizeMax) :
    load F (fileBytes F ord ctime keys expiring records) =
      unixNow >>= fun currentTime => loadRecords F ord currentTime records := by
  have hsplit : fileBytes F ord ctime keys expiring records =
      rdbMagic ++ rdbVersion ++ (writeAux (Str.utf8 "redis-ver") (Str.utf8 "7.0.0") ++
        (writeAux (Str.utf8 "redis-bits") (Str.utf8 "64") ++
        (writeAux (Str.utf8 "ctime") (Decimal.displayU64 ctime) ++
        ((opSelectDb :: writeLength 0) ++ (resize keys expiring ++
        (records.flatMap (writeRecord F ord) ++ trailer)))))) := by
    simp [fileBytes, header]
  have hmagic : (fileBytes F ord ctime keys expiring records).take 5 = rdbMagic := by
    rw [hsplit]
    rfl
  have haux : ∀ k v : Bytes, 0 < (writeAux k v).length := by simp [writeAux]
  have hresize : 0 < (resize keys expiring).length := by simp [resize]
  have hrecords := length_le_flatMap (writeRecord F ord) records (writeRecord_pos F ord)
  have hfuel : 9 ≤ (fileBytes F ord ctime keys expiring records).length ∧
      ∃ fuel, (fileBytes F ord ctime keys expiring records).length + 1 = fuel + 5 ∧
        records.length < fuel := by
    have h₁ := haux (Str.utf8 "redis-ver") (Str.utf8 "7.0.0")
    have h₂ := haux (Str.utf8 "redis-bits") (Str.utf8 "64")
    have h₃ := haux (Str.utf8 "ctime") (Decimal.displayU64 ctime)
    have h₄ : (rdbMagic ++ rdbVersion).length = 9 := rfl
    rw [hsplit, List.length_append, h₄]
    simp only [List.length_append, List.length_cons]
    refine ⟨by omega, _, (Nat.sub_add_cancel (by omega)).symm, by omega⟩
  obtain ⟨hnine, fuel, hfuel, hlt⟩ := hfuel
  rw [load, if_neg (by rw [hmagic]; simp; omega), hfuel]
  congr 1
  funext currentTime
  rw [hsplit] at hlen ⊢
  show loadRest F currentTime (rdbMagic ++ rdbVersion) _ (fuel + 5) = _
  rw [loadRest_skip F currentTime (reads_aux F currentTime _ _) (haux _ _) _ _ hlen]
  rw [← List.append_assoc] at hlen
  rw [loadRest_skip F currentTime (reads_aux F currentTime _ _) (haux _ _) _ _ hlen]
  rw [← List.append_assoc] at hlen
  rw [loadRest_skip F currentTime (reads_aux F currentTime _ _) (haux _ _) _ _ hlen]
  rw [← List.append_assoc] at hlen
  rw [loadRest_skip F currentTime (reads_select F currentTime) (by simp) _ _ hlen]
  rw [← List.append_assoc] at hlen
  rw [loadRest_skip F currentTime (reads_resize F currentTime keys expiring) hresize _ _ hlen]
  rw [← List.append_assoc] at hlen
  exact loadRest_records F ord currentTime records hfits _ fuel hlt hlen

end FireRedis
