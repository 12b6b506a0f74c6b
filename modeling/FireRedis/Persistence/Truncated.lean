import FireRedis.Base.Truncated
import FireRedis.Persistence.Overflow
import FireRedis.Persistence.Traps

/-!
# Cut snapshot files

The loader's loop also ends where the file does, so a file that is cut between
two of its parts loads without an error. Within a part every reader checks the
end of the file before it reads, but for one byte: the value type behind an
expiration time.
-/

namespace FireRedis
open Std RdbSerializer RdbDeserializer
open Reader (Stops)

/-! ### Lengths and strings -/

/-- The error is returned, not a panic. -/
def Refusal (_ : ℕ) (e : LoadFault) : Prop := ¬ e.IsPanic

theorem refusal_invalid (msg : String) (k : ℕ) : Refusal k (invalid msg) := id

/-- The first byte of a length tells how many bytes follow. -/
theorem writeLength_shape (len : UInt64) : ∃ b rest, writeLength len = b :: rest ∧
    (((b &&& 0xC0) >>> 6 = 0 ∧ rest.length = 0) ∨ ((b &&& 0xC0) >>> 6 = 1 ∧ rest.length = 1) ∨
      ((b &&& 0xC0) >>> 6 = 2 ∧ rest.length = 8)) := by
  rw [writeLength]
  split
  · rename_i h
    obtain ⟨htype, -⟩ := length_bytes len.toNat (UInt64.lt_iff_toNat_lt.mp h)
    exact ⟨_, _, rfl, .inl ⟨byte_of_length len ▸ htype, rfl⟩⟩
  · split
    · rename_i h
      have hlt : len.toNat < 16384 := UInt64.lt_iff_toNat_lt.mp h
      obtain ⟨-, -, htype, -⟩ := length_bytes (len.toNat / 256) (by omega)
      rw [word_of_length hlt]
      exact ⟨_, _, rfl, .inr (.inl ⟨htype, rfl⟩)⟩
    · exact ⟨_, _, rfl, .inr (.inr ⟨by decide, toBeBytes_length _⟩)⟩

theorem stops_length (bound : ℕ) (len : UInt64) :
    Stops bound readLength (writeLength len) Refusal := by
  obtain ⟨b, rest, henc, hshape⟩ := writeLength_shape len
  have hfirst : Stops bound (Reader.byteOr (invalid "Unexpected end of file")) [b] Refusal :=
    Stops.byteOr (refusal_invalid _ 0) b
  have hsplit : b :: rest = [b] ++ rest := rfl
  rw [henc, hsplit, readLength]
  refine Stops.andThen (Reader.Reads.byteOr _ b) hfirst ?_
  rcases hshape with ⟨htype, hrest⟩ | ⟨htype, hrest⟩ | ⟨htype, hrest⟩
  · rw [List.length_eq_zero_iff.mp hrest]
    exact Stops.nil _
  · obtain ⟨c, rfl⟩ := List.length_eq_one_iff.mp hrest
    have hsplit : [c] = [c] ++ [] := rfl
    rw [htype, if_neg (by decide), if_pos rfl, hsplit]
    exact Stops.andThen (Reader.Reads.byteOr _ c) (Stops.byteOr (refusal_invalid _ _) c)
      (Stops.nil _)
  · have hsplit : rest = rest ++ [] := (List.append_nil _).symm
    rw [htype, if_neg (by decide), if_neg (by decide), if_pos rfl, hsplit, ← hrest]
    exact Stops.andThen (Reader.Reads.takeOr _ rest)
      (Stops.takeOr rest fun k _ => refusal_invalid _ k) (Stops.nil _)

theorem stops_slice (bs : Bytes) : Stops isizeMax (slice bs.length) bs Refusal := by
  intro front k hlen hk
  have hpos : ¬ front.length + bs.length ≥ 2 ^ 64 := by
    rw [List.length_append, isizeMax] at hlen
    omega
  have htake : Stops isizeMax (Reader.takeOr bs.length (invalid "Truncated string")) bs Refusal :=
    Stops.takeOr bs fun k _ => refusal_invalid _ k
  obtain ⟨e, he, hrun⟩ := htake front k hlen hk
  refine ⟨e, he, ?_⟩
  rw [← hrun]
  show slice bs.length (front ++ bs.take k) front.length = _
  rw [slice, if_neg hpos]
  rfl

theorem stops_string (bs : Bytes) :
    Stops isizeMax readStringBytes (writeBytes bs) Refusal := by
  apply Stops.of_length
  intro hlen
  rw [writeBytes, List.length_append] at hlen
  have hcount := toNat_ofNat_of_le (Nat.le_of_add_left_le hlen)
  rw [readStringBytes, writeBytes]
  refine Stops.andThen (reads_length isizeMax _) (stops_length isizeMax _) ?_
  rw [hcount]
  exact stops_slice bs

/-! ### Collections -/

theorem stops_items {α β : Type} {bytes : ℕ → ℕ} {write : α → Bytes}
    {item : Reader LoadFault β} {g : α → β} (items : List α)
    (hcap : bytes items.length ≤ isizeMax) (hpos : ∀ x, 0 < (write x).length)
    (hread : ∀ x ∈ items, Reader.Reads isizeMax item (write x) (.ok (g x)))
    (hstop : ∀ x ∈ items, Stops isizeMax item (write x) Refusal) :
    Stops isizeMax (readItems bytes item) (writeItems items.length write items) Refusal := by
  apply Stops.of_length
  intro hlen
  have hcount := count_of_items hpos hlen
  have halloc : allocate (bytes items.length) = pure () := by
    rw [allocate, if_neg (by omega)]
  rw [readItems, writeItems]
  refine Stops.andThen (reads_length isizeMax _) (stops_length isizeMax _) ?_
  rw [hcount, halloc]
  exact Stops.many items hread hstop

theorem stops_field (e : Str × Bytes) : Stops isizeMax readField (writeField e) Refusal := by
  have henc : writeField e = writeBytes e.1.bytes ++ (writeBytes e.2 ++ []) := by
    rw [List.append_nil]
    rfl
  rw [henc, readField]
  refine Stops.andThen (reads_string e.1.bytes) (stops_string e.1.bytes) ?_
  exact Stops.andThen (reads_string e.2) (stops_string e.2) (Stops.nil _)

theorem stops_score {F : FloatText} (hF : F.RoundTrips) (e : Bytes × F64) :
    Stops isizeMax (readScore F) (writeScore F e) Refusal := by
  obtain ⟨y, hy, -⟩ := hF e.2
  have henc : writeBytes e.1 = writeBytes e.1 ++ [] := (List.append_nil _).symm
  rw [readScore, writeScore]
  refine Stops.andThen (reads_string (F.toString e.2).bytes) (stops_string _) ?_
  rw [Str.fromUtf8Lossy_bytes, hy, henc]
  exact Stops.andThen (reads_string e.1) (stops_string e.1) (Stops.nil _)

/-! ### Values -/

/-- A member with its score as the text gives it back. -/
def reread (F : FloatText) (e : Bytes × F64) : Bytes × F64 :=
  (e.1, (F.parse (F.toString e.2)).getD e.2)

theorem readBack_eq {F : FloatText} (hF : F.RoundTrips) (e : Bytes × F64) :
    readBack F e = .ok (reread F e) := by
  obtain ⟨y, hy, -⟩ := hF e.2
  rw [readBack, reread, hy]
  rfl

theorem mapM_readBack {F : FloatText} (hF : F.RoundTrips) (items : List (Bytes × F64)) :
    items.mapM (readBack F) = .ok (items.map (reread F)) := by
  have heq : readBack F = fun e => (pure (reread F e) : Except LoadFault _) :=
    funext (readBack_eq hF)
  rw [heq, List.mapM_pure]
  rfl

theorem reparse_ok {F : FloatText} (hF : F.RoundTrips) (ord : IterOrder) (v : StoredValue) :
    ∃ v', reparse F ord v = .ok v' := by
  cases v with
  | sortedSet z => exact ⟨_, by rw [reparse, mapM_readBack hF]; rfl⟩
  | _ => exact ⟨_, rfl⟩

theorem stops_value {F : FloatText} (hF : F.RoundTrips) (ord : IterOrder) (v : StoredValue)
    (hfits : v.Fits) :
    Stops isizeMax (readValue F (valueType v)) (writeValue F ord v) Refusal := by
  have hwrap : writeValue F ord v = writeValue F ord v ++ [] := (List.append_nil _).symm
  rw [hwrap]
  cases v with
  | string s =>
    have hread : readValue F typeString = do return .string (← readStringBytes) := rfl
    rw [valueType, hread]
    exact Stops.andThen (reads_string s) (stops_string s) (Stops.nil _)
  | list items =>
    have hread : readValue F typeList = do
      return .list (← readItems (· * sizeOfBytes) readStringBytes) := rfl
    rw [valueType, hread]
    exact Stops.andThen (reads_items_ok items hfits writeBytes_pos reads_string)
      (stops_items (g := id) items hfits writeBytes_pos (fun x _ => reads_string x)
        fun x _ => stops_string x) (Stops.nil _)
  | set S =>
    have hread : readValue F typeSet = do
      let items ← readItems (hashTableBytes sizeOfBytes) readStringBytes
      return .set (items.foldl (fun set item => set.insert item) ∅) := rfl
    have hsize : S.size = (ord.members S).length := by
      rw [(ord.members_perm S).length_eq, ExtTreeSet.length_toList]
    rw [StoredValue.Fits, hsize] at hfits
    rw [valueType, hread, writeValue, hsize]
    exact Stops.andThen (reads_items_ok (ord.members S) hfits writeBytes_pos reads_string)
      (stops_items (g := id) (ord.members S) hfits writeBytes_pos (fun x _ => reads_string x)
        fun x _ => stops_string x) (Stops.nil _)
  | hash H =>
    have hread : readValue F typeHash = do
      let items ← readItems (hashTableBytes (sizeOfString + sizeOfBytes)) readField
      return .hash (items.foldl (fun map e => map.insert e.1 e.2) ∅) := rfl
    have hsize : H.size = (ord.fields H).length := by
      rw [(ord.fields_perm H).length_eq, ExtTreeMap.length_toList]
    rw [StoredValue.Fits, hsize] at hfits
    rw [valueType, hread, writeValue, hsize]
    exact Stops.andThen (reads_items_ok (ord.fields H) hfits writeField_pos reads_field)
      (stops_items (g := id) (ord.fields H) hfits writeField_pos (fun x _ => reads_field x)
        fun x _ => stops_field x) (Stops.nil _)
  | sortedSet z =>
    have hread : readValue F typeZset = do
      let items ← readItems (hashTableBytes (sizeOfBytes + sizeOfF64)) (readScore F)
      return .sortedSet (items.foldl insertScore ⟨∅, ∅⟩) := rfl
    have hsize : z.scores.size = (ord.scores z.scores).length := by
      rw [(ord.scores_perm z.scores).length_eq, ExtTreeMap.length_toList]
    have hone : ∀ e, Reader.Reads isizeMax (readScore F) (writeScore F e) (.ok (reread F e)) :=
      fun e => readBack_eq hF e ▸ reads_score F e
    rw [StoredValue.Fits, hsize] at hfits
    have hitems := reads_items (ord.scores z.scores) hfits (writeScore_pos F) (reads_score F)
    rw [mapM_readBack hF] at hitems
    rw [valueType, hread, writeValue, hsize]
    exact Stops.andThen hitems
      (stops_items (ord.scores z.scores) hfits (writeScore_pos F) (fun e _ => hone e)
        fun e _ => stops_score hF e) (Stops.nil _)

theorem stops_entry {F : FloatText} (hF : F.RoundTrips) (ord : IterOrder) (key : Str)
    (v : StoredValue) (hfits : v.Fits) :
    Stops isizeMax (readEntry F (valueType v)) (writeBytes key.bytes ++ writeValue F ord v)
      Refusal := by
  obtain ⟨v', hv'⟩ := reparse_ok hF ord v
  have hvalue := reads_value F ord v hfits
  have hwrap : writeValue F ord v = writeValue F ord v ++ [] := (List.append_nil _).symm
  rw [hv'] at hvalue
  rw [hwrap, readEntry]
  refine Stops.andThen (reads_string key.bytes) (stops_string key.bytes) ?_
  exact Stops.andThen hvalue (stops_value hF ord v hfits) (Stops.nil _)

/-! ### The parts of a file -/

/-- How a turn of the loop ends when the file breaks off within a part: with a
panic just behind an expiration time, and with an error everywhere else. -/
def PartFault (enc : Bytes) (k : ℕ) (e : LoadFault) : Prop :=
  0 < k → (e.IsPanic ↔ enc.head? = some opExpireTimeMs ∧ k = 9)

/-- A part that the loader reads in one turn, and what a cut within it does. -/
structure Part (F : FloatText) (currentTime : UInt64) (enc : Bytes) : Prop where
  pos : 0 < enc.length
  reads : ∃ step, Reader.Reads isizeMax (loadStep F currentTime) enc (.ok step) ∧ step ≠ .eof
  stops : Stops isizeMax (loadStep F currentTime) enc (PartFault enc)

section Parts

variable {F : FloatText} (currentTime : UInt64)

/-- An opcode other than the expiration times, and what follows it. -/
theorem stops_opcode {op : UInt8} (hop : op ≠ opExpireTimeMs) {tail : Bytes}
    (h : Stops isizeMax (loadOpcode F currentTime op) tail Refusal) :
    Stops isizeMax (loadStep F currentTime) (op :: tail) (PartFault (op :: tail)) := by
  have hsplit : op :: tail = [op] ++ tail := rfl
  rw [loadStep, hsplit]
  refine Stops.andThen (Reader.Reads.byteOr _ op)
    (Stops.byteOr (fun hpos => absurd hpos (Nat.lt_irrefl 0)) op) (h.imp fun k e he _ => ?_)
  refine ⟨fun hpanic => absurd hpanic he, ?_⟩
  rintro ⟨hhead, -⟩
  exact absurd (Option.some.inj hhead) hop

theorem part_aux (key value : Bytes) : Part F currentTime (writeAux key value) where
  pos := by simp [writeAux]
  reads := ⟨.skip, reads_aux F currentTime key value, nofun⟩
  stops := by
    refine stops_opcode currentTime (by decide) ?_
    have hsplit : writeBytes key ++ writeBytes value =
        writeBytes key ++ (writeBytes value ++ []) := by rw [List.append_nil]
    show Stops isizeMax (loadOpcode F currentTime opAux) (writeBytes key ++ writeBytes value) _
    rw [hsplit]
    refine Stops.andThen (reads_string key) (stops_string key) ?_
    exact Stops.andThen (reads_string value) (stops_string value) (Stops.nil _)

theorem part_select : Part F currentTime (opSelectDb :: writeLength 0) where
  pos := by simp
  reads := ⟨.skip, reads_select F currentTime, nofun⟩
  stops := by
    refine stops_opcode currentTime (by decide) ?_
    rw [← List.append_nil (writeLength 0)]
    exact Stops.andThen (reads_length isizeMax 0) (stops_length isizeMax 0) (Stops.nil _)

theorem part_resize (keys expiring : ℕ) : Part F currentTime (resize keys expiring) where
  pos := by simp [resize]
  reads := ⟨.skip, reads_resize F currentTime keys expiring, nofun⟩
  stops := by
    refine stops_opcode currentTime (by decide) ?_
    have hsplit : writeLength (UInt64.ofNat keys) ++ writeLength (UInt64.ofNat expiring) =
        writeLength (UInt64.ofNat keys) ++ (writeLength (UInt64.ofNat expiring) ++ []) := by
      rw [List.append_nil]
    show Stops isizeMax (loadOpcode F currentTime opResizeDb)
      (writeLength (UInt64.ofNat keys) ++ writeLength (UInt64.ofNat expiring)) _
    rw [hsplit]
    refine Stops.andThen (reads_length isizeMax _) (stops_length isizeMax _) ?_
    exact Stops.andThen (reads_length isizeMax _) (stops_length isizeMax _) (Stops.nil _)

theorem part_record (hF : F.RoundTrips) (ord : IterOrder) (r : Record) (hfits : r.value.Fits) :
    Part F currentTime (writeRecord F ord r) where
  pos := writeRecord_pos F ord r
  reads := by
    obtain ⟨v', hv'⟩ := reparse_ok hF ord r.value
    have hreads := reads_record F ord currentTime r hfits
    rw [recordStep_read F ord currentTime hv'] at hreads
    exact ⟨_, hreads, stepOf_ne_eof currentTime r v'⟩
  stops := by
    obtain ⟨key, v, expireAtMs⟩ := r
    obtain ⟨v', hv'⟩ := reparse_ok hF ord v
    have hentry := reads_entry F ord key v hfits
    rw [hv'] at hentry
    cases expireAtMs with
    | none =>
      have hop : valueType v ≠ opExpireTimeMs := by
        cases v <;> simp only [valueType] <;> decide
      refine stops_opcode currentTime hop ?_
      rw [loadOpcode_valueType]
      show Stops isizeMax _ (writeBytes key.bytes ++ writeValue F ord v) Refusal
      rw [← List.append_nil (writeBytes key.bytes ++ writeValue F ord v)]
      exact Stops.andThen hentry (stops_entry hF ord key v hfits) (Stops.nil _)
    | some ms =>
      have henc : writeRecord F ord ⟨key, v, some ms⟩ = [opExpireTimeMs] ++ (toLeBytes ms ++
          ([valueType v] ++ ((writeBytes key.bytes ++ writeValue F ord v) ++ []))) := by
        simp [writeRecord, writeExpiry]
      have height := toLeBytes_length ms
      have hopcode : loadOpcode F currentTime opExpireTimeMs =
          Reader.takeOr (toLeBytes ms).length (invalid "Truncated expire time") >>= fun time =>
            readExpiring F currentTime (fromLeBytes time) := by
        rw [height]
        rfl
      rw [loadStep, henc]
      refine Stops.andThen (Reader.Reads.byteOr _ opExpireTimeMs)
        (Stops.byteOr (fun hpos => absurd hpos (Nat.lt_irrefl 0)) _) ?_
      rw [hopcode]
      refine Stops.andThen (Reader.Reads.takeOr _ (toLeBytes ms))
        (Stops.takeOr _ fun k hk _ => ?_) ?_
      · refine ⟨fun hpanic => absurd hpanic (refusal_invalid _ k), fun h => ?_⟩
        have hnine : 1 + k = 9 := h.2
        omega
      · rw [readExpiring]
        refine Stops.andThen (Reader.Reads.byteOr _ (valueType v)) (Stops.byteOr (fun _ => ?_) _) ?_
        · rw [height]
          exact ⟨fun _ => ⟨rfl, rfl⟩, fun _ => trivial⟩
        · refine Stops.andThen hentry ((stops_entry hF ord key v hfits).imp fun k e he _ => ?_)
            (Stops.nil _)
          refine ⟨fun hpanic => absurd hpanic he, fun h => ?_⟩
          have hnine : 1 + ((toLeBytes ms).length + (1 + k)) = 9 := h.2
          omega

end Parts

/-! ### A cut file -/

/-- The cut is within a part, and not just behind its expiration time. -/
def CutInside (parts : List Bytes) (n : ℕ) : Prop :=
  ∃ before enc after k, parts = before ++ enc :: after ∧ n = before.flatten.length + k ∧
    0 < k ∧ k < enc.length ∧ ¬ (enc.head? = some opExpireTimeMs ∧ k = 9)

theorem not_cutInside_nil (n : ℕ) : ¬ CutInside [] n := by
  rintro ⟨before, enc, after, k, hparts, -⟩
  exact absurd hparts (by simp)

/-- The cut is behind the first part. -/
theorem cutInside_later {enc : Bytes} {parts : List Bytes} (n : ℕ) :
    CutInside (enc :: parts) (enc.length + n) ↔ CutInside parts n := by
  constructor
  · rintro ⟨before, enc', after, k, hparts, hn, hk, hlt, hexpiry⟩
    cases before with
    | nil =>
      obtain ⟨rfl, -⟩ := List.cons.inj hparts
      rw [List.flatten_nil, List.length_nil] at hn
      omega
    | cons b before =>
      obtain ⟨rfl, rfl⟩ := List.cons.inj hparts
      refine ⟨before, enc', after, k, rfl, ?_, hk, hlt, hexpiry⟩
      rw [List.flatten_cons, List.length_append] at hn
      omega
  · rintro ⟨before, enc', after, k, rfl, rfl, hk, hlt, hexpiry⟩
    refine ⟨enc :: before, enc', after, k, rfl, ?_, hk, hlt, hexpiry⟩
    rw [List.flatten_cons, List.length_append]
    omega

/-- The cut is in the first part. -/
theorem cutInside_first {enc : Bytes} {parts : List Bytes} {n : ℕ} (hn : n < enc.length) :
    CutInside (enc :: parts) n ↔ 0 < n ∧ ¬ (enc.head? = some opExpireTimeMs ∧ n = 9) := by
  constructor
  · rintro ⟨before, enc', after, k, hparts, rfl, hk, hlt, hexpiry⟩
    cases before with
    | nil =>
      obtain ⟨rfl, -⟩ := List.cons.inj hparts
      rw [List.flatten_nil, List.length_nil, Nat.zero_add]
      exact ⟨hk, hexpiry⟩
    | cons b before =>
      obtain ⟨rfl, -⟩ := List.cons.inj hparts
      rw [List.flatten_cons, List.length_append] at hn
      omega
  · rintro ⟨hpos, hexpiry⟩
    exact ⟨[], enc, parts, n, rfl, by simp, hpos, hn, hexpiry⟩

section Load

variable {F : FloatText} (currentTime : UInt64) (now : Reading)

theorem act_run (step : LoadStep) (s : Store) :
    ∃ s', step.act.runAt now s = (.ok (), s') := by
  cases step with
  | restore key value => exact ⟨_, Store.restore_run ..⟩
  | setWithTtl key value ttl => exact ⟨_, Store.setWithTtl_run ..⟩
  | eof => exact ⟨s, rfl⟩
  | skip => exact ⟨s, rfl⟩

theorem loadRest_end (front : Bytes) {fuel : ℕ} (hfuel : 0 < fuel) (s : Store) :
    (loadRest F currentTime front [] fuel).runAt now s = (.ok (.ok ()), s) := by
  obtain ⟨fuel, rfl⟩ : ∃ f, fuel = f + 1 := ⟨fuel - 1, by omega⟩
  rw [loadRest, loadLoop, if_pos (by simp)]
  rfl

/-- A turn that ends in an error ends the load. -/
theorem loadRest_fault {front cut : Bytes} {e : LoadFault}
    (h : (loadStep F currentTime).runAt (front ++ cut) front.length = .error e)
    (hcut : 0 < cut.length) {fuel : ℕ} (hfuel : 0 < fuel) (s : Store) :
    (∃ msg, ((loadRest F currentTime front cut fuel).runAt now s).1 = .ok (.error msg)) ↔
      ¬ e.IsPanic := by
  obtain ⟨fuel, rfl⟩ : ∃ f, fuel = f + 1 := ⟨fuel - 1, by omega⟩
  have hlt : ¬ front.length ≥ (front ++ cut).length := by
    rw [List.length_append]
    omega
  rw [loadRest, loadLoop, if_neg hlt, h]
  cases e with
  | invalidFormat msg => exact iff_of_true ⟨msg, rfl⟩ id
  | panic p =>
    refine iff_of_false ?_ fun h => h trivial
    rintro ⟨msg, hmsg⟩
    cases hmsg

/-- The loop on parts of which the last ones are cut off. -/
theorem loadRest_cut (parts : List Bytes) (hparts : ∀ enc ∈ parts, Part F currentTime enc)
    (front : Bytes) (n fuel : ℕ) (hlen : (front ++ parts.flatten).length ≤ isizeMax)
    (hfuel : (parts.flatten.take n).length < fuel) (s : Store) :
    (∃ msg, ((loadRest F currentTime front (parts.flatten.take n) fuel).runAt now s).1 =
      .ok (.error msg)) ↔ CutInside parts n := by
  induction parts generalizing front n fuel s with
  | nil =>
    rw [List.flatten_nil, List.take_nil] at hfuel ⊢
    rw [loadRest_end currentTime now front hfuel]
    refine iff_of_false ?_ (not_cutInside_nil n)
    rintro ⟨msg, h⟩
    cases Except.ok.inj h
  | cons enc parts ih =>
    obtain ⟨hpos, ⟨step, hread, hne⟩, hstops⟩ := hparts enc (List.mem_cons_self ..)
    rw [List.flatten_cons] at hlen hfuel ⊢
    by_cases hn : enc.length ≤ n
    · obtain ⟨j, rfl⟩ : ∃ j, n = enc.length + j := ⟨n - enc.length, by omega⟩
      obtain ⟨fuel, rfl⟩ : ∃ f, fuel = f + 1 := ⟨fuel - 1, by omega⟩
      obtain ⟨s', hact⟩ := act_run now step s
      rw [List.take_length_add_append] at hfuel ⊢
      rw [List.length_append] at hfuel
      have hcut : (front ++ enc ++ parts.flatten.take j).length ≤ isizeMax := by
        simp only [List.length_append, List.length_take] at hlen ⊢
        omega
      rw [loadRest_cons F currentTime hread hpos front _ hcut, follow_ok hne,
        runAt_bind_ok now hact, cutInside_later]
      exact ih (fun e he => hparts e (List.mem_cons_of_mem _ he)) (front ++ enc) j fuel
        (by rwa [List.append_assoc]) (by omega) s'
    · have hlt : n < enc.length := Nat.lt_of_not_le hn
      rw [List.take_append_of_le_length (Nat.le_of_lt hlt)] at hfuel ⊢
      rw [cutInside_first hlt]
      rcases Nat.eq_zero_or_pos n with rfl | hpos'
      · rw [List.take_zero] at hfuel ⊢
        rw [loadRest_end currentTime now front hfuel]
        refine iff_of_false ?_ fun h => absurd h.1 (Nat.lt_irrefl 0)
        rintro ⟨msg, h⟩
        cases Except.ok.inj h
      · have hfull : (front ++ enc).length ≤ isizeMax := by
          simp only [List.length_append] at hlen ⊢
          omega
        have hcut : 0 < (enc.take n).length := by
          rw [List.length_take]
          omega
        obtain ⟨e, he, hrun⟩ := hstops front n hfull hlt
        rw [loadRest_fault currentTime now hrun hcut (by omega) s, he hpos']
        exact (and_iff_right hpos').symm

end Load

/-- The parts of a file between the version and the end. -/
def fileParts (F : FloatText) (ord : IterOrder) (ctime : UInt64) (keys expiring : ℕ)
    (records : List Record) : List Bytes :=
  [writeAux (Str.utf8 "redis-ver") (Str.utf8 "7.0.0"),
    writeAux (Str.utf8 "redis-bits") (Str.utf8 "64"),
    writeAux (Str.utf8 "ctime") (Decimal.displayU64 ctime), opSelectDb :: writeLength 0,
    resize keys expiring] ++ records.map (writeRecord F ord)

/-- The parts of the file that a save writes for a store without expired keys. -/
def savedParts (F : FloatText) (ord : IterOrder) (saved : Reading) (D : Store) : List Bytes :=
  fileParts F ord (saved.unixMs / 1000) D.data.size D.expirations.size
    ((ord.data D.data).map (savedRecord saved D))

theorem savedBytes_parts (F : FloatText) (ord : IterOrder) (saved : Reading) (D : Store) :
    savedBytes F ord saved D =
      rdbMagic ++ rdbVersion ++ (savedParts F ord saved D).flatten ++ trailer := by
  simp [savedBytes, fileBytes, header, savedParts, fileParts, List.flatMap_def]

theorem parts_savedParts {F : FloatText} (hF : F.RoundTrips) (ord : IterOrder) (saved : Reading)
    {s : Store} (hfits : FitsAt s saved.instant) (currentTime : UInt64) :
    ∀ enc ∈ savedParts F ord saved (s.evicted saved.instant), Part F currentTime enc := by
  intro enc henc
  rcases List.mem_append.mp henc with henc | henc
  · simp only [List.mem_cons, List.not_mem_nil, or_false] at henc
    rcases henc with rfl | rfl | rfl | rfl | rfl
    · exact part_aux currentTime _ _
    · exact part_aux currentTime _ _
    · exact part_aux currentTime _ _
    · exact part_select currentTime
    · exact part_resize currentTime _ _
  · obtain ⟨r, hr, rfl⟩ := List.mem_map.mp henc
    obtain ⟨⟨key, v⟩, hv, rfl⟩ := List.mem_map.mp hr
    obtain ⟨e, he, rfl⟩ := (mem_evicted (ord.data_perm _) key v).mp hv
    exact part_record currentTime hF ord _ (hfits key e he)

/-- The first bytes of a saved file, cut before its end opcode, are refused
exactly if not even the version is complete or the cut is within a part. -/
theorem load_truncated (F : FloatText) (hF : F.RoundTrips) (s : Store) (h : Visited F s)
    (ord : IterOrder) (path path' : PathBuf) (fs fs' fs'' : FileSystem) (s' t : Store)
    (bytes : Bytes) (saved loaded : Reading)
    (hsave : (saveToFile F ord path fs).runAt saved s = (.ok fs', s'))
    (hread : fs'.read path = some bytes) (hlen : bytes.length ≤ isizeMax)
    (hfits : FitsAt s saved.instant) (cut : ℕ) (hcut : cut + 9 ≤ bytes.length)
    (hfile : fs''.read path' = some (bytes.take cut)) :
    (∃ msg, ((loadFromFile F fs'' path').runAt loaded t).1 = .ok (.error msg)) ↔
      cut < 9 ∨ ∃ n, cut = 9 + n ∧ CutInside (savedParts F ord saved s') n := by
  obtain ⟨fs₀, hrun, hread₀, -⟩ := saveToFile_run F ord saved (visited_inv h) path fs
  obtain ⟨hfs, rfl⟩ := Prod.mk.inj (hrun.symm.trans hsave)
  obtain rfl := Except.ok.inj hfs
  obtain rfl := Option.some.inj (hread.symm.trans hread₀)
  have hparts := parts_savedParts hF ord saved hfits loaded.unixMs
  rw [savedBytes_parts] at hlen hcut hfile
  generalize savedParts F ord saved (s.evicted saved.instant) = parts at *
  have hhead : (rdbMagic ++ rdbVersion).length = 9 := rfl
  rw [loadFromFile, hfile]
  show (∃ msg, ((load F _).runAt loaded t).1 = .ok (.error msg)) ↔ _
  rw [load]
  by_cases hshort : cut < 9
  · have hlength : ((rdbMagic ++ rdbVersion ++ parts.flatten ++ trailer).take cut).length < 9 := by
      rw [List.length_take]
      omega
    rw [if_pos (.inl hlength)]
    exact iff_of_true ⟨_, rfl⟩ (.inl hshort)
  · obtain ⟨n, rfl⟩ : ∃ n, cut = 9 + n := ⟨cut - 9, by omega⟩
    have hn : n ≤ parts.flatten.length := by
      have htrailer : trailer.length = 9 := rfl
      rw [List.length_append, List.length_append, hhead, htrailer] at hcut
      omega
    have htake : (rdbMagic ++ rdbVersion ++ parts.flatten ++ trailer).take (9 + n) =
        rdbMagic ++ rdbVersion ++ parts.flatten.take n := by
      rw [List.append_assoc, ← hhead, List.take_length_add_append,
        List.take_append_of_le_length hn]
    have hlong : ¬ ((rdbMagic ++ rdbVersion ++ parts.flatten.take n).length < 9 ∨
        (rdbMagic ++ rdbVersion ++ parts.flatten.take n).take 5 ≠ rdbMagic) := by
      rintro (hlt | hne)
      · rw [List.length_append, hhead] at hlt
        omega
      · exact hne rfl
    have hwhole : (rdbMagic ++ rdbVersion ++ parts.flatten).length ≤ isizeMax := by
      rw [List.length_append] at hlen
      omega
    have hload := loadRest_cut loaded.unixMs loaded parts hparts (rdbMagic ++ rdbVersion) n
      ((rdbMagic ++ rdbVersion ++ parts.flatten.take n).length + 1) hwhole
      (by rw [List.length_append]; omega) t
    rw [htake, if_neg hlong]
    refine hload.trans ⟨fun hinside => .inr ⟨n, rfl, hinside⟩, ?_⟩
    rintro (hlt | ⟨m, hm, hinside⟩)
    · omega
    · obtain rfl : n = m := by omega
      exact hinside

/-- A file cut one byte into its first part is refused. -/
theorem load_truncated_part : ∃ fs' s',
    (saveToFile bitText .sorted (Str.utf8 "d.rdb") .empty).runAt ⟨0, 77⟩ (volatileFor 5) =
      (.ok fs', s') ∧
    ∃ bytes, fs'.read (Str.utf8 "d.rdb") = some bytes ∧
      ∃ msg, ((loadFromFile bitText (Traps.holding (bytes.take 10)) Traps.path).runAt ⟨1, 78⟩
        Store.empty).1 = .ok (.error msg) := by
  obtain ⟨fs', hsave, hread⟩ := volatileFor_saved 5
  have hlen : (savedBytes bitText .sorted ⟨0, 77⟩ ((volatileFor 5).evicted 0)).length = 77 := by
    decide +kernel
  refine ⟨fs', _, hsave, _, hread, ?_⟩
  refine (load_truncated bitText bitText_roundTrips _ (visited_volatileFor 5) .sorted
    (Str.utf8 "d.rdb") Traps.path .empty fs' _ _ Store.empty _ ⟨0, 77⟩ ⟨1, 78⟩ hsave hread
    (hlen.le.trans (by decide)) (volatileFor_fits 5 0) 10 (by omega) rfl).mpr (.inr ⟨1, rfl, ?_⟩)
  exact ⟨[], writeAux (Str.utf8 "redis-ver") (Str.utf8 "7.0.0"), _, 1, rfl, rfl, by decide,
    by decide, by decide⟩

/-- Cut behind the sizes of the tables, the file of one live key loads as an
empty dataset, without an error. -/
theorem load_truncated_header : ∃ fs' s',
    (saveToFile bitText .sorted (Str.utf8 "d.rdb") .empty).runAt ⟨0, 77⟩ (volatileFor 5) =
      (.ok fs', s') ∧
    (volatileFor 5).live 0 (Str.lit "k") = some ⟨.string [], some (0 + fromMillis 5)⟩ ∧
    ∃ bytes, fs'.read (Str.utf8 "d.rdb") = some bytes ∧ 55 + 9 < bytes.length ∧
      (loadFromFile bitText (Traps.holding (bytes.take 55)) Traps.path).runAt ⟨0, 77⟩
        Store.empty = (.ok (.ok ()), Store.empty) := by
  obtain ⟨fs', hsave, hread⟩ := volatileFor_saved 5
  have hlen : (savedBytes bitText .sorted ⟨0, 77⟩ ((volatileFor 5).evicted 0)).length = 77 := by
    decide +kernel
  have htake : (savedBytes bitText .sorted ⟨0, 77⟩ ((volatileFor 5).evicted 0)).take 55 =
      header 0 ++ resize 1 1 := by
    decide +kernel
  refine ⟨fs', _, hsave, volatileFor_live 5 (by decide), _, hread, by omega, ?_⟩
  rw [htake]
  rfl

end FireRedis
