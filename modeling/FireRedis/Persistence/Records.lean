import FireRedis.Base.Maps
import FireRedis.Persistence.Rdb

/-!
# Reading back what the serializer writes

Each writer of the snapshot file has a reader that undoes it, wherever the
encoding stands in a file that fits in memory. Scores pass through their text,
so a sorted set is read back as `reparse` says.
-/

namespace FireRedis
open Std RdbSerializer RdbDeserializer

/-! ### Lengths and strings -/

theorem length_bytes : ∀ k < 64,
    (UInt8.ofNat k &&& 0xC0) >>> 6 = 0 ∧ ((UInt8.ofNat k).toUInt64 &&& 0x3F).toNat = k ∧
      (UInt8.ofNat (64 + k) &&& 0xC0) >>> 6 = 1 ∧
      ((UInt8.ofNat (64 + k)).toUInt64 &&& 0x3F).toNat = k := by
  decide

/-- The bytes of a length that takes one. -/
theorem byte_of_length (len : UInt64) : len.toUInt8 = UInt8.ofNat len.toNat := by
  apply UInt8.toNat_inj.mp
  simp

/-- The bytes of a length that takes two. -/
theorem word_of_length {len : UInt64} (h : len.toNat < 16384) :
    (toBeBytes ((1 : UInt64) <<< 14 ||| len)).drop 6 =
      [UInt8.ofNat (64 + len.toNat / 256), UInt8.ofNat (len.toNat % 256)] := by
  have hword : ((1 : UInt64) <<< 14 ||| len).toNat = 16384 + len.toNat := by
    have hor := Nat.two_pow_add_eq_or_of_lt (i := 14) (b := len.toNat) (by omega) 1
    rw [UInt64.toNat_or]
    show 2 ^ 14 * 1 ||| len.toNat = _
    rw [← hor]
  have hfirst : (16384 + len.toNat) / 256 % 256 = 64 + len.toNat / 256 := by omega
  have hsecond : (16384 + len.toNat) % 256 = len.toNat % 256 := by omega
  rw [toBeBytes_drop, hword, hfirst, hsecond]

theorem reads_length_short (bound : ℕ) (len : UInt64) (h : len.toNat < 64) :
    Reader.Reads bound readLength [len.toUInt8] (.ok len) := by
  obtain ⟨htype, hvalue, -, -⟩ := length_bytes len.toNat h
  have hbyte := byte_of_length len
  have hlen : len.toUInt8.toUInt64 &&& 0x3F = len := by
    rw [hbyte]
    exact UInt64.toNat_inj.mp hvalue
  have henc : [len.toUInt8] = [len.toUInt8] ++ [] := (List.append_nil _).symm
  rw [henc, readLength]
  apply Reader.Reads.andThen (Reader.Reads.byteOr _ len.toUInt8)
  rw [hbyte, htype, if_pos rfl, ← hbyte, hlen]
  exact Reader.Reads.pure len

theorem reads_length_long (bound : ℕ) (len : UInt64) (h : len.toNat < 16384) :
    Reader.Reads bound readLength ((toBeBytes ((1 : UInt64) <<< 14 ||| len)).drop 6)
      (.ok len) := by
  have hk : len.toNat / 256 < 64 := by omega
  obtain ⟨-, -, htype, hvalue⟩ := length_bytes (len.toNat / 256) hk
  have henc : [UInt8.ofNat (64 + len.toNat / 256), UInt8.ofNat (len.toNat % 256)] =
      [UInt8.ofNat (64 + len.toNat / 256)] ++ ([UInt8.ofNat (len.toNat % 256)] ++ []) := rfl
  rw [word_of_length h, henc, readLength]
  apply Reader.Reads.andThen (Reader.Reads.byteOr _ _)
  rw [htype, if_neg (by decide), if_pos rfl]
  apply Reader.Reads.andThen (Reader.Reads.byteOr _ _)
  have hjoin : ((UInt8.ofNat (64 + len.toNat / 256)).toUInt64 &&& 0x3F) <<< 8 |||
      (UInt8.ofNat (len.toNat % 256)).toUInt64 = len := by
    apply UInt64.toNat_inj.mp
    have hlow : (UInt8.ofNat (len.toNat % 256)).toNat = len.toNat % 256 := by
      rw [UInt8.toNat_ofNat']
      omega
    rw [shiftLeft_or_toNat (by omega), hvalue, hlow]
    omega
  rw [hjoin]
  exact Reader.Reads.pure len

theorem reads_length_wide (bound : ℕ) (len : UInt64) :
    Reader.Reads bound readLength (0x80 :: toBeBytes len) (.ok len) := by
  have henc : 0x80 :: toBeBytes len = [0x80] ++ (toBeBytes len ++ []) := by simp
  have htake : Reader.Reads bound (Reader.takeOr 8 (invalid "Truncated length")) (toBeBytes len)
      (.ok (toBeBytes len)) := by
    have h : Reader.Reads bound _ _ _ :=
      Reader.Reads.takeOr (invalid "Truncated length") (toBeBytes len)
    rw [toBeBytes_length] at h
    exact h
  rw [henc, readLength]
  apply Reader.Reads.andThen (Reader.Reads.byteOr _ _)
  rw [if_neg (by decide), if_neg (by decide), if_pos (by decide)]
  apply Reader.Reads.andThen htake
  rw [fromBeBytes_toBeBytes]
  exact Reader.Reads.pure len

theorem reads_length (bound : ℕ) (len : UInt64) :
    Reader.Reads bound readLength (writeLength len) (.ok len) := by
  rw [writeLength]
  split
  · rename_i h
    exact reads_length_short bound len (UInt64.lt_iff_toNat_lt.mp h)
  · split
    · rename_i h
      exact reads_length_long bound len (UInt64.lt_iff_toNat_lt.mp h)
    · exact reads_length_wide bound len

theorem toNat_ofNat_of_le {n : ℕ} (h : n ≤ isizeMax) : (UInt64.ofNat n).toNat = n := by
  rw [isizeMax] at h
  rw [UInt64.toNat_ofNat']
  omega

theorem reads_slice (bs : Bytes) : Reader.Reads isizeMax (slice bs.length) bs (.ok bs) := by
  intro front rest hlen
  have hpos : ¬ front.length + bs.length ≥ 2 ^ 64 := by
    simp only [List.length_append, isizeMax] at hlen
    omega
  have htake := Reader.Reads.takeOr (invalid "Truncated string") bs front rest hlen
  rw [← htake]
  show slice bs.length (front ++ bs ++ rest) front.length = _
  rw [slice, if_neg hpos]
  rfl

theorem reads_string (bs : Bytes) :
    Reader.Reads isizeMax readStringBytes (writeBytes bs) (.ok bs) := by
  apply Reader.Reads.of_length
  intro hlen
  rw [writeBytes, List.length_append] at hlen
  have hcount := toNat_ofNat_of_le (Nat.le_of_add_left_le hlen)
  rw [readStringBytes, writeBytes]
  apply Reader.Reads.andThen (reads_length isizeMax _)
  rw [hcount]
  exact reads_slice bs

/-! ### Collections -/

theorem writeLength_ne_nil (len : UInt64) : 0 < (writeLength len).length := by
  rw [writeLength]
  split
  · simp
  · split <;> simp

theorem writeBytes_pos (bs : Bytes) : 0 < (writeBytes bs).length := by
  have h := writeLength_ne_nil (UInt64.ofNat bs.length)
  rw [writeBytes, List.length_append]
  omega

theorem writeField_pos (e : Str × Bytes) : 0 < (writeField e).length := by
  rw [writeField, List.length_append]
  exact Nat.add_pos_left (writeBytes_pos e.1.bytes) _

theorem writeScore_pos (F : FloatText) (e : Bytes × F64) : 0 < (writeScore F e).length := by
  rw [writeScore, List.length_append]
  exact Nat.add_pos_right _ (writeBytes_pos e.1)

theorem length_le_flatMap {α : Type} (write : α → Bytes) (items : List α)
    (hpos : ∀ x, 0 < (write x).length) : items.length ≤ (items.flatMap write).length := by
  induction items with
  | nil => simp
  | cons x items ih =>
    have hx := hpos x
    rw [List.flatMap_cons, List.length_append, List.length_cons]
    omega

theorem count_of_items {α : Type} {write : α → Bytes} {items : List α}
    (hpos : ∀ x, 0 < (write x).length)
    (hlen : (writeItems items.length write items).length ≤ isizeMax) :
    (UInt64.ofNat items.length).toNat = items.length := by
  rw [writeItems, List.length_append] at hlen
  have hle := length_le_flatMap write items hpos
  exact toNat_ofNat_of_le (hle.trans (Nat.le_of_add_left_le hlen))

/-- A collection whose table or vector can be allocated. -/
theorem reads_items {α β : Type} {bytes : ℕ → ℕ} {write : α → Bytes}
    {item : Reader LoadFault β} {g : α → Except LoadFault β} (items : List α)
    (hcap : bytes items.length ≤ isizeMax) (hpos : ∀ x, 0 < (write x).length)
    (hitem : ∀ x, Reader.Reads isizeMax item (write x) (g x)) :
    Reader.Reads isizeMax (readItems bytes item) (writeItems items.length write items)
      (items.mapM g) := by
  apply Reader.Reads.of_length
  intro hlen
  have hcount := count_of_items hpos hlen
  rw [readItems, writeItems]
  apply Reader.Reads.andThen (reads_length isizeMax _)
  have halloc : allocate (bytes items.length) = pure () := by
    rw [allocate, if_neg (by omega)]
  rw [hcount, halloc]
  exact Reader.Reads.many items fun x _ => hitem x

theorem reads_items_ok {α : Type} {bytes : ℕ → ℕ} {write : α → Bytes}
    {item : Reader LoadFault α} (items : List α)
    (hcap : bytes items.length ≤ isizeMax) (hpos : ∀ x, 0 < (write x).length)
    (hitem : ∀ x, Reader.Reads isizeMax item (write x) (.ok x)) :
    Reader.Reads isizeMax (readItems bytes item) (writeItems items.length write items)
      (.ok items) := by
  have h := reads_items (g := Except.ok) items hcap hpos hitem
  have hall : items.mapM (fun x => (.ok x : Except LoadFault α)) = .ok items := by
    have hpure := List.mapM_pure (m := Except LoadFault) (l := items) (f := id)
    rwa [List.map_id] at hpure
  rw [← hall]
  exact h

theorem reads_field (e : Str × Bytes) :
    Reader.Reads isizeMax readField (writeField e) (.ok e) := by
  have henc : writeField e = writeBytes e.1.bytes ++ (writeBytes e.2 ++ []) := by
    rw [List.append_nil]
    rfl
  rw [henc, readField]
  apply Reader.Reads.andThen (reads_string e.1.bytes)
  apply Reader.Reads.andThen (reads_string e.2)
  rw [Str.fromUtf8Lossy_bytes]
  exact Reader.Reads.pure e

/-- A score as its text is read. -/
def readBack (F : FloatText) (e : Bytes × F64) : Except LoadFault (Bytes × F64) :=
  match F.parse (F.toString e.2) with
  | some score => .ok (e.1, score)
  | none => .error (invalid "Invalid score")

theorem reads_score (F : FloatText) (e : Bytes × F64) :
    Reader.Reads isizeMax (readScore F) (writeScore F e) (readBack F e) := by
  rw [readScore, writeScore]
  apply Reader.Reads.andThen (reads_string (F.toString e.2).bytes)
  rw [Str.fromUtf8Lossy_bytes, readBack]
  cases F.parse (F.toString e.2) with
  | none =>
    intro front rest hlen
    rfl
  | some score =>
    have henc : writeBytes e.1 = writeBytes e.1 ++ [] := (List.append_nil _).symm
    rw [henc]
    apply Reader.Reads.andThen (reads_string e.1)
    exact Reader.Reads.pure (e.1, score)

/-! ### Values -/

/-- The collection of a value is within what `with_capacity` can allocate. -/
def StoredValue.Fits : StoredValue → Prop
  | .string _ => True
  | .list items => items.length * sizeOfBytes ≤ isizeMax
  | .set S => hashTableBytes sizeOfBytes S.size ≤ isizeMax
  | .hash H => hashTableBytes (sizeOfString + sizeOfBytes) H.size ≤ isizeMax
  | .sortedSet z => hashTableBytes (sizeOfBytes + sizeOfF64) z.scores.size ≤ isizeMax

/-- The value that is read back. -/
def reparse (F : FloatText) (ord : IterOrder) : StoredValue → Except LoadFault StoredValue
  | .sortedSet z => do
    let items ← (ord.scores z.scores).mapM (readBack F)
    return .sortedSet (items.foldl insertScore ⟨∅, ∅⟩)
  | v => .ok v

theorem reads_value (F : FloatText) (ord : IterOrder) (v : StoredValue) (hfits : v.Fits) :
    Reader.Reads isizeMax (readValue F (valueType v)) (writeValue F ord v) (reparse F ord v) := by
  have hwrap : writeValue F ord v = writeValue F ord v ++ [] := (List.append_nil _).symm
  rw [hwrap]
  cases v with
  | string s =>
    have hread : readValue F typeString = do return .string (← readStringBytes) := rfl
    rw [valueType, hread]
    exact Reader.Reads.andThen (reads_string s) (Reader.Reads.pure _)
  | list items =>
    have hread : readValue F typeList = do
      return .list (← readItems (· * sizeOfBytes) readStringBytes) := rfl
    rw [valueType, hread]
    exact Reader.Reads.andThen (reads_items_ok items hfits writeBytes_pos reads_string)
      (Reader.Reads.pure _)
  | set S =>
    have hread : readValue F typeSet = do
      let items ← readItems (hashTableBytes sizeOfBytes) readStringBytes
      return .set (items.foldl (fun set item => set.insert item) ∅) := rfl
    have hsize : S.size = (ord.members S).length := by
      rw [(ord.members_perm S).length_eq, ExtTreeSet.length_toList]
    rw [StoredValue.Fits, hsize] at hfits
    rw [valueType, hread, writeValue, hsize]
    apply Reader.Reads.andThen (reads_items_ok (ord.members S) hfits writeBytes_pos reads_string)
    rw [ExtTreeSet.foldl_insert_perm S (ord.members S) (ord.members_perm S)]
    exact Reader.Reads.pure _
  | hash H =>
    have hread : readValue F typeHash = do
      let items ← readItems (hashTableBytes (sizeOfString + sizeOfBytes)) readField
      return .hash (items.foldl (fun map e => map.insert e.1 e.2) ∅) := rfl
    have hsize : H.size = (ord.fields H).length := by
      rw [(ord.fields_perm H).length_eq, ExtTreeMap.length_toList]
    rw [StoredValue.Fits, hsize] at hfits
    rw [valueType, hread, writeValue, hsize]
    apply Reader.Reads.andThen (reads_items_ok (ord.fields H) hfits writeField_pos reads_field)
    rw [ExtTreeMap.foldl_insert_perm H (ord.fields H) (ord.fields_perm H)]
    exact Reader.Reads.pure _
  | sortedSet z =>
    have hread : readValue F typeZset = do
      let items ← readItems (hashTableBytes (sizeOfBytes + sizeOfF64)) (readScore F)
      return .sortedSet (items.foldl insertScore ⟨∅, ∅⟩) := rfl
    have hsize : z.scores.size = (ord.scores z.scores).length := by
      rw [(ord.scores_perm z.scores).length_eq, ExtTreeMap.length_toList]
    rw [StoredValue.Fits, hsize] at hfits
    rw [valueType, hread, writeValue, hsize]
    have hitems := reads_items (ord.scores z.scores) hfits (writeScore_pos F) (reads_score F)
    exact Reader.Reads.bind hitems fun items _ => Reader.Reads.pure _

/-! ### Records -/

theorem reads_entry (F : FloatText) (ord : IterOrder) (key : Str) (v : StoredValue)
    (hfits : v.Fits) :
    Reader.Reads isizeMax (readEntry F (valueType v))
      (writeBytes key.bytes ++ writeValue F ord v)
      (do return (key, ← reparse F ord v)) := by
  have hwrap : writeValue F ord v = writeValue F ord v ++ [] := (List.append_nil _).symm
  rw [hwrap, readEntry]
  apply Reader.Reads.andThen (reads_string key.bytes)
  rw [Str.fromUtf8Lossy_bytes]
  exact Reader.Reads.bind (reads_value F ord v hfits) fun value _ => Reader.Reads.pure _

/-- What the loader does about a record. -/
def recordStep (F : FloatText) (ord : IterOrder) (currentTime : UInt64) (r : Record) :
    Except LoadFault LoadStep := do
  let value ← reparse F ord r.value
  match r.expireAtMs with
  | none => return .restore r.key value
  | some ms =>
    return if ms > currentTime then .setWithTtl r.key value (ms - currentTime) else .skip

theorem loadOpcode_valueType (F : FloatText) (currentTime : UInt64) (v : StoredValue) :
    loadOpcode F currentTime (valueType v) = do
      let (key, value) ← readEntry F (valueType v)
      return .restore key value := by
  cases v <;> rfl

theorem reads_expiring (F : FloatText) (ord : IterOrder) (currentTime ms : UInt64) (key : Str)
    (v : StoredValue) (hfits : v.Fits) :
    Reader.Reads isizeMax (readExpiring F currentTime ms)
      (valueType v :: writeBytes key.bytes ++ writeValue F ord v)
      (recordStep F ord currentTime ⟨key, v, some ms⟩) := by
  have henc : valueType v :: writeBytes key.bytes ++ writeValue F ord v =
      [valueType v] ++ ((writeBytes key.bytes ++ writeValue F ord v) ++ []) := by simp
  have hstep : recordStep F ord currentTime ⟨key, v, some ms⟩ = do
      let (key, value) ← (do return (key, ← reparse F ord v))
      return if ms > currentTime then .setWithTtl key value (ms - currentTime) else .skip := by
    rw [recordStep]
    cases reparse F ord v <;> rfl
  rw [henc, hstep, readExpiring]
  apply Reader.Reads.andThen (Reader.Reads.byteOr _ _)
  exact Reader.Reads.bind (reads_entry F ord key v hfits) fun e _ => Reader.Reads.pure _

theorem reads_record (F : FloatText) (ord : IterOrder) (currentTime : UInt64) (r : Record)
    (hfits : r.value.Fits) :
    Reader.Reads isizeMax (loadStep F currentTime) (writeRecord F ord r)
      (recordStep F ord currentTime r) := by
  obtain ⟨key, v, expireAtMs⟩ := r
  rw [loadStep]
  cases expireAtMs with
  | none =>
    have henc : writeRecord F ord ⟨key, v, none⟩ =
        [valueType v] ++ ((writeBytes key.bytes ++ writeValue F ord v) ++ []) := by
      simp [writeRecord, writeExpiry]
    have hstep : recordStep F ord currentTime ⟨key, v, none⟩ = do
        let (key, value) ← (do return (key, ← reparse F ord v))
        return .restore key value := by
      rw [recordStep]
      cases reparse F ord v <;> rfl
    rw [henc, hstep]
    apply Reader.Reads.andThen (Reader.Reads.byteOr _ _)
    rw [loadOpcode_valueType]
    exact Reader.Reads.bind (reads_entry F ord key v hfits) fun e _ => Reader.Reads.pure _
  | some ms =>
    have henc : writeRecord F ord ⟨key, v, some ms⟩ = [opExpireTimeMs] ++ (toLeBytes ms ++
        (valueType v :: writeBytes key.bytes ++ writeValue F ord v)) := by
      simp [writeRecord, writeExpiry]
    have hopcode : loadOpcode F currentTime opExpireTimeMs =
        Reader.takeOr 8 (invalid "Truncated expire time") >>= fun time =>
          readExpiring F currentTime (fromLeBytes time) := rfl
    have htake : Reader.Reads isizeMax (Reader.takeOr 8 (invalid "Truncated expire time"))
        (toLeBytes ms) (.ok (toLeBytes ms)) := by
      have h : Reader.Reads isizeMax _ _ _ :=
        Reader.Reads.takeOr (invalid "Truncated expire time") (toLeBytes ms)
      rw [toLeBytes_length] at h
      exact h
    rw [henc]
    apply Reader.Reads.andThen (Reader.Reads.byteOr _ _)
    rw [hopcode]
    apply Reader.Reads.andThen htake
    rw [fromLeBytes_toLeBytes]
    exact reads_expiring F ord currentTime ms key v hfits

end FireRedis
