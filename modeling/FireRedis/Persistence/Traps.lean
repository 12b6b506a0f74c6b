import FireRedis.Base.Format
import FireRedis.Persistence.Reachable

/-!
# Where the loader panics

The format of the snapshot file, for whatever bytes the file holds: what the
deserializer reads as a record, and the three places at which it panics. These
are a string whose end overflows `usize`, a collection too large to allocate,
and the end of the file behind an expiration time. Everywhere else the loader
adds at most nine to a position in the file, which is no overflow.
-/

namespace FireRedis
open Std RdbSerializer RdbDeserializer
open Reader (Meets)

namespace RdbFormat

/-! ### The format -/

/-- A length of 6 bits, of 14 bits or of 8 bytes. -/
def length : Format ℕ :=
  Format.byte.bind fun b =>
    if b.toNat < 64 then .pure b.toNat
    else if b.toNat < 128 then Format.byte.bind fun c => .pure ((b.toNat - 64) * 256 + c.toNat)
    else if b.toNat < 192 then (Format.bytes 8).bind fun bs => .pure (fromBeBytes bs).toNat
    else .none

/-- The bytes after a length. Reading traps if their end is beyond `usize`. -/
def slice (n : ℕ) : Format Bytes where
  code enc bs := enc = bs ∧ bs.length = n
  trap pos _ := 2 ^ 64 ≤ pos + n

def string : Format Bytes := length.bind slice

/-- A count and as many items. Reading traps if they take too many bytes to allocate. -/
def items {α : Type} (bytes : ℕ → ℕ) (item : Format α) : Format Unit :=
  length.bind fun n => (Format.require (bytes n ≤ isizeMax)).bind fun _ => item.times n

def field : Format Bytes := string.bind fun _ => string

def score (F : FloatText) : Format Bytes :=
  string.bind fun text => if (F.parse (Str.fromUtf8Lossy text)).isSome then string else .none

def value (F : FloatText) (valueType : UInt8) : Format Unit :=
  if valueType = typeString then string.drop
  else if valueType = typeList then items (· * sizeOfBytes) string
  else if valueType = typeSet then items (hashTableBytes sizeOfBytes) string
  else if valueType = typeHash then items (hashTableBytes (sizeOfString + sizeOfBytes)) field
  else if valueType = typeZset then items (hashTableBytes (sizeOfBytes + sizeOfF64)) (score F)
  else .none

def entry (F : FloatText) (valueType : UInt8) : Format Unit :=
  string.bind fun _ => value F valueType

/-- What follows an expiration time. Reading traps at the end of the file. -/
def expiring (F : FloatText) : Format Bool :=
  Format.mustByte.bind fun valueType => (entry F valueType).bind fun _ => .pure false

/-- What follows an opcode, and whether the opcode ends the file. -/
def opcode (F : FloatText) (op : UInt8) : Format Bool :=
  if op = opEof then .pure true
  else if op = opSelectDb then length.bind fun _ => .pure false
  else if op = opResizeDb then length.bind fun _ => length.bind fun _ => .pure false
  else if op = opAux then string.bind fun _ => string.bind fun _ => .pure false
  else if op = opExpireTimeMs then (Format.bytes 8).bind fun _ => expiring F
  else if op = opExpireTime then (Format.bytes 4).bind fun _ => expiring F
  else (entry F op).bind fun _ => .pure false

def record (F : FloatText) : Format Bool := Format.mustByte.bind (opcode F)

end RdbFormat

/-! ### The readers meet their formats -/

def LoadFault.IsPanic : LoadFault → Prop
  | .invalidFormat _ => False
  | .panic _ => True

/-- The reader meets the format in every file that fits in memory. -/
abbrev Loads {α β : Type} (view : α → β) (m : Reader LoadFault α) (φ : Format β) : Prop :=
  Meets isizeMax LoadFault.IsPanic view m φ

/-- The two high bits and the six low bits of a byte. -/
theorem byte_bits : ∀ i < 4, ∀ k < 64,
    (UInt8.ofNat (64 * i + k) &&& 0xC0) >>> 6 = UInt8.ofNat i ∧
      ((UInt8.ofNat (64 * i + k)).toUInt64 &&& 0x3F).toNat = k := by
  decide

theorem first_byte (b : UInt8) : (b &&& 0xC0) >>> 6 = UInt8.ofNat (b.toNat / 64) ∧
    (b.toUInt64 &&& 0x3F).toNat = b.toNat % 64 := by
  have hb : b.toNat < 256 := b.toNat_lt
  have hbits := byte_bits (b.toNat / 64) (by omega) (b.toNat % 64) (by omega)
  rwa [Nat.div_add_mod, UInt8.ofNat_toNat] at hbits

theorem meets_length : Loads UInt64.toNat readLength RdbFormat.length := by
  refine Meets.bind (Meets.byteOr id) fun b => ?_
  obtain ⟨htype, hvalue⟩ := first_byte b
  have hb : b.toNat < 256 := b.toNat_lt
  have hfour : b.toNat / 64 = 0 ∨ b.toNat / 64 = 1 ∨ b.toNat / 64 = 2 ∨ b.toNat / 64 = 3 := by
    omega
  simp only [id_eq]
  rcases hfour with h | h | h | h <;> rw [htype, h]
  · have hlow : b.toNat = (b.toUInt64 &&& 0x3F).toNat := by omega
    rw [if_pos (by decide), if_pos (by omega), hlow]
    exact Meets.pure UInt64.toNat _
  · rw [if_neg (by decide), if_pos (by decide), if_neg (by omega), if_pos (by omega)]
    refine Meets.bind (Meets.byteOr id) fun c => ?_
    have hjoin : (b.toNat - 64) * 256 + c.toNat =
        ((b.toUInt64 &&& 0x3F) <<< 8 ||| c.toUInt64).toNat := by
      rw [shiftLeft_or_toNat (by omega), hvalue]
      omega
    rw [id_eq, hjoin]
    exact Meets.pure UInt64.toNat _
  · rw [if_neg (by decide), if_neg (by decide), if_pos (by decide), if_neg (by omega),
      if_neg (by omega), if_pos (by omega)]
    exact Meets.bind (Meets.takeOr id 8) fun bs => Meets.pure UInt64.toNat _
  · rw [if_neg (by decide), if_neg (by decide), if_neg (by decide), if_neg (by omega),
      if_neg (by omega), if_neg (by omega)]
    exact Meets.fail id

theorem meets_slice (n : ℕ) : Loads id (slice n) (RdbFormat.slice n) := by
  have htake : Loads id (Reader.takeOr n (invalid "Truncated string")) (Format.bytes n) :=
    Meets.takeOr id n
  have hover : ∀ front tail : Bytes, 2 ^ 64 ≤ front.length + n →
      (slice n).runAt (front ++ tail) front.length = .error (.panic .rangeOutOfBounds) :=
    fun front tail h => if_pos h
  have hfits : ∀ front tail : Bytes, ¬ 2 ^ 64 ≤ front.length + n →
      (slice n).runAt (front ++ tail) front.length =
        (Reader.takeOr n (invalid "Truncated string")).runAt (front ++ tail) front.length :=
    fun front tail h => if_neg h
  constructor
  · rintro front enc rest _ hlen ⟨rfl, rfl⟩
    exact ⟨enc, rfl, reads_slice enc front rest hlen⟩
  · intro front tail a pos hlen h
    by_cases hn : 2 ^ 64 ≤ front.length + n
    · rw [hover front tail hn] at h
      cases h
    · rw [hfits front tail hn] at h
      exact htake.sound front tail a pos hlen h
  · intro front tail hlen
    by_cases hn : 2 ^ 64 ≤ front.length + n
    · exact ⟨fun _ => hn, fun _ => ⟨.panic .rangeOutOfBounds, trivial, hover front tail hn⟩⟩
    · rw [hfits front tail hn]
      exact (htake.traps front tail hlen).trans ⟨False.elim, fun h => absurd h hn⟩

theorem meets_string : Loads id readStringBytes RdbFormat.string :=
  Meets.bind meets_length fun len => meets_slice len.toNat

theorem meets_allocate (bytes : ℕ) :
    Loads (fun _ => ()) (allocate bytes) (Format.require (bytes ≤ isizeMax)) := by
  by_cases h : bytes > isizeMax
  · have hnot : ¬ bytes ≤ isizeMax := Nat.not_le.mpr h
    rw [allocate, if_pos h]
    constructor
    · rintro front enc rest u - ⟨-, hle⟩
      exact absurd hle hnot
    · intro front tail a pos _ hrun
      cases hrun
    · exact fun front tail _ => ⟨fun _ => hnot, fun _ => ⟨.panic .capacityOverflow, trivial, rfl⟩⟩
  · rw [allocate, if_neg h]
    refine (Meets.pure (fun _ => ()) ()).congr (fun enc u => ?_) fun pos tail => ?_
    · exact and_congr_right fun _ => ⟨fun _ => Nat.not_lt.mp h, fun _ => rfl⟩
    · exact ⟨False.elim, fun hnot => hnot (Nat.not_lt.mp h)⟩

section Values

variable {α β : Type} (F : FloatText)

theorem meets_items {view : α → β} {item : Reader LoadFault α} {φ : Format β} (bytes : ℕ → ℕ)
    (h : Loads view item φ) :
    Loads (fun _ => ()) (readItems bytes item) (RdbFormat.items bytes φ) :=
  Meets.bind meets_length fun len =>
    Meets.bind (meets_allocate (bytes len.toNat)) fun _ => h.many len.toNat

theorem meets_field : Loads Prod.snd readField RdbFormat.field :=
  Meets.bind meets_string fun _ => meets_string.returning fun _ => rfl

theorem meets_score : Loads Prod.fst (readScore F) (RdbFormat.score F) := by
  refine Meets.bind meets_string fun text => ?_
  rw [id_eq]
  cases hparse : F.parse (Str.fromUtf8Lossy text) with
  | none => exact Meets.fail id
  | some score => exact meets_string.returning fun _ => rfl

theorem meets_value (valueType : UInt8) :
    Loads (fun _ => ()) (readValue F valueType) (RdbFormat.value F valueType) := by
  unfold readValue RdbFormat.value
  split
  · exact meets_string.drop.returning fun _ => rfl
  split
  · exact (meets_items _ meets_string).returning fun _ => rfl
  split
  · exact (meets_items _ meets_string).returning fun _ => rfl
  split
  · exact (meets_items _ meets_field).returning fun _ => rfl
  split
  · exact (meets_items _ (meets_score F)).returning fun _ => rfl
  · exact Meets.fail id

theorem meets_entry (valueType : UInt8) :
    Loads (fun _ => ()) (readEntry F valueType) (RdbFormat.entry F valueType) :=
  Meets.bind meets_string fun _ => (meets_value F valueType).returning fun _ => rfl

end Values

/-! ### Records -/

namespace RdbDeserializer

def LoadStep.isEof : LoadStep → Bool
  | .eof => true
  | _ => false

end RdbDeserializer

section Records

variable (F : FloatText) (currentTime : UInt64)

theorem meets_expiring (expireMs : UInt64) :
    Loads LoadStep.isEof (readExpiring F currentTime expireMs) (RdbFormat.expiring F) := by
  refine Meets.bind (Meets.mustByte trivial) fun valueType => ?_
  refine Meets.bind (meets_entry F valueType) fun entry => ?_
  dsimp only
  split
  · exact Meets.pure LoadStep.isEof _
  · exact Meets.pure LoadStep.isEof _

theorem meets_opcode (op : UInt8) :
    Loads LoadStep.isEof (loadOpcode F currentTime op) (RdbFormat.opcode F op) := by
  unfold loadOpcode RdbFormat.opcode
  split
  · exact Meets.pure LoadStep.isEof .eof
  split
  · exact Meets.bind meets_length fun _ => Meets.pure LoadStep.isEof .skip
  split
  · exact Meets.bind meets_length fun _ =>
      Meets.bind meets_length fun _ => Meets.pure LoadStep.isEof .skip
  split
  · exact Meets.bind meets_string fun _ =>
      Meets.bind meets_string fun _ => Meets.pure LoadStep.isEof .skip
  split
  · exact Meets.bind (Meets.takeOr id 8) fun time => meets_expiring F currentTime _
  split
  · exact Meets.bind (Meets.takeOr id 4) fun time => meets_expiring F currentTime _
  · exact Meets.bind (meets_entry F op) fun entry => Meets.pure LoadStep.isEof _

theorem meets_record : Loads LoadStep.isEof (loadStep F currentTime) (RdbFormat.record F) :=
  Meets.bind (Meets.mustByte trivial) fun op => meets_opcode F currentTime op

end Records

/-! ### The loop -/

/-- Whole records, and behind them a record at which reading traps. -/
def TrapsBehind (F : FloatText) (pos : ℕ) (tail : Bytes) : Prop :=
  ∃ (records : List Bytes) (rest : Bytes), tail = records.flatten ++ rest ∧
    (∀ r ∈ records, (RdbFormat.record F).code r false) ∧ rest ≠ [] ∧
    (RdbFormat.record F).trap (pos + records.flatten.length) rest

section Loop

variable {F : FloatText} (currentTime : UInt64)

theorem record_length {enc : Bytes} {eof : Bool} (h : (RdbFormat.record F).code enc eof) :
    0 < enc.length := by
  obtain ⟨op, rest, b, rfl, rfl, -⟩ := h
  exact Nat.succ_pos _

theorem trapsBehind_nil (pos : ℕ) : ¬ TrapsBehind F pos [] := by
  rintro ⟨records, rest, htail, -, hrest, -⟩
  exact hrest (List.append_eq_nil_iff.mp htail.symm).2

theorem trapsBehind_append {front enc rest : Bytes}
    (hlen : (front ++ (enc ++ rest)).length ≤ isizeMax)
    (h : (RdbFormat.record F).code enc false) :
    TrapsBehind F front.length (enc ++ rest) ↔ TrapsBehind F (front.length + enc.length) rest := by
  have hm := meets_record F 0
  constructor
  · rintro ⟨records, last, htail, hrecords, hlast, htrap⟩
    cases records with
    | nil =>
      obtain rfl : enc ++ rest = last := htail
      exact absurd htrap (hm.not_trap hlen h)
    | cons r records =>
      have hr := hrecords r (List.mem_cons_self ..)
      rw [List.flatten_cons, List.append_assoc] at htail
      obtain ⟨rfl, rfl, -⟩ := hm.code_unique hlen htail h hr
      rw [List.flatten_cons, List.length_append, ← Nat.add_assoc] at htrap
      exact ⟨records, last, rfl, fun r' hr' => hrecords r' (List.mem_cons_of_mem _ hr'), hlast,
        htrap⟩
  · rintro ⟨records, last, rfl, hrecords, hlast, htrap⟩
    refine ⟨enc :: records, last, ?_, List.forall_mem_cons.mpr ⟨h, hrecords⟩, hlast, ?_⟩
    · rw [List.flatten_cons, List.append_assoc]
    · rwa [List.flatten_cons, List.length_append, ← Nat.add_assoc]

theorem not_trapsBehind {front tail : Bytes}
    (htrap : ¬ (RdbFormat.record F).trap front.length tail)
    (hcode : ∀ enc rest, tail = enc ++ rest → ¬ (RdbFormat.record F).code enc false) :
    ¬ TrapsBehind F front.length tail := by
  rintro ⟨records, last, htail, hrecords, -, hlast⟩
  cases records with
  | nil =>
    obtain rfl : tail = last := htail
    exact htrap hlast
  | cons r records =>
    rw [List.flatten_cons, List.append_assoc] at htail
    exact hcode r _ htail (hrecords r (List.mem_cons_self ..))

theorem loadLoop_turn {front tail : Bytes} (htail : tail ≠ []) (fuel : ℕ) :
    loadLoop F currentTime (front ++ tail) (fuel + 1) front.length =
      match (loadStep F currentTime).runAt (front ++ tail) front.length with
      | .error fault => follow (.error fault) (return .ok ())
      | .ok (step, pos) => follow (.ok step) (loadLoop F currentTime (front ++ tail) fuel pos) := by
  have hlt : ¬ front.length ≥ (front ++ tail).length := by
    have hpos := List.length_pos_iff.mpr htail
    rw [List.length_append]
    omega
  rw [loadLoop, if_neg hlt]
  rcases (loadStep F currentTime).runAt (front ++ tail) front.length with (msg | p) | ⟨step, pos⟩
  · rfl
  · rfl
  · cases step <;> rfl

theorem act_ok (step : LoadStep) (now : Reading) (s : Store) :
    ∃ s', step.act.runAt now s = (.ok (), s') := by
  cases step with
  | restore key value => exact ⟨_, Store.restore_run ..⟩
  | setWithTtl key value ttl => exact ⟨_, Store.setWithTtl_run ..⟩
  | _ => exact ⟨s, rfl⟩

/-- The loop ends with a result exactly if no record before the end traps. -/
theorem loadLoop_ok (now : Reading) (fuel : ℕ) (front tail : Bytes) (s : Store)
    (hfuel : tail.length < fuel) (hlen : (front ++ tail).length ≤ isizeMax) :
    (∃ r, ((loadLoop F currentTime (front ++ tail) fuel front.length).runAt now s).1 = .ok r) ↔
      ¬ TrapsBehind F front.length tail := by
  induction fuel generalizing front tail s with
  | zero => exact absurd hfuel (Nat.not_lt_zero _)
  | succ fuel ih =>
    have hm := meets_record F currentTime
    rcases eq_or_ne tail [] with rfl | htail
    · rw [loadLoop, if_pos (by rw [List.append_nil])]
      exact ⟨fun _ => trapsBehind_nil _, fun _ => ⟨_, rfl⟩⟩
    rw [loadLoop_turn currentTime htail]
    cases hrun : (loadStep F currentTime).runAt (front ++ tail) front.length with
    | error fault =>
      have hcode : ∀ enc rest, tail = enc ++ rest → ¬ (RdbFormat.record F).code enc false := by
        rintro enc rest rfl h
        rw [← List.append_assoc] at hlen hrun
        obtain ⟨a, -, hok⟩ := hm.reads front enc rest false hlen h
        cases hok.symm.trans hrun
      cases fault with
      | invalidFormat msg =>
        refine ⟨fun _ => not_trapsBehind (fun htrap => ?_) hcode, fun _ => ⟨_, rfl⟩⟩
        obtain ⟨e, hbad, herror⟩ := (hm.traps front tail hlen).mpr htrap
        obtain rfl : _ = e := Except.error.inj (hrun.symm.trans herror)
        exact hbad
      | panic p =>
        have htrap := (hm.traps front tail hlen).mp ⟨.panic p, trivial, hrun⟩
        constructor
        · rintro ⟨r, h⟩
          cases h
        · exact fun h => absurd ⟨[], tail, rfl, List.forall_mem_nil _, htail, htrap⟩ h
    | ok p =>
      obtain ⟨step, pos⟩ := p
      obtain ⟨enc, rest, rfl, hcode, rfl⟩ := hm.sound front tail step pos hlen hrun
      by_cases heof : step = .eof
      · subst heof
        refine ⟨fun _ => not_trapsBehind (hm.not_trap hlen hcode) ?_, fun _ => ⟨_, rfl⟩⟩
        intro enc' rest' heq h
        cases (hm.code_unique hlen heq hcode h).2.2
      · have hfalse : step.isEof = false := by
          cases step with
          | eof => exact absurd rfl heof
          | _ => rfl
        rw [hfalse] at hcode
        rw [trapsBehind_append hlen hcode]
        obtain ⟨s', hact⟩ := act_ok step now s
        dsimp only
        rw [follow_ok heof, runAt_bind_ok now hact, ← List.append_assoc, ← List.length_append]
        have hpos := record_length hcode
        rw [List.length_append] at hfuel
        exact ih (front ++ enc) rest s' (by omega) (by rwa [List.append_assoc])

end Loop

/-! ### The file -/

/-- A header, whole records, and behind them a record at which reading traps. -/
def RdbTraps (F : FloatText) (buf : Bytes) : Prop :=
  ∃ version tail, version.length = 4 ∧ buf = rdbMagic ++ version ++ tail ∧ TrapsBehind F 9 tail

theorem header_split {buf : Bytes} (hlen : 9 ≤ buf.length) (hmagic : buf.take 5 = rdbMagic) :
    ∃ version tail, version.length = 4 ∧ buf = rdbMagic ++ version ++ tail := by
  refine ⟨(buf.drop 5).take 4, (buf.drop 5).drop 4, ?_, ?_⟩
  · rw [List.length_take, List.length_drop]
    omega
  · rw [List.append_assoc, List.take_append_drop, ← hmagic, List.take_append_drop]

/-- The loader ends with a result exactly if the file does not trap it. -/
theorem load_ends (F : FloatText) (fs : FileSystem) (path : PathBuf) (now : Reading) (s : Store)
    {buf : Bytes} (hfile : fs.read path = some buf) (hlen : buf.length ≤ isizeMax) :
    (∃ r, ((loadFromFile F fs path).runAt now s).1 = .ok r) ↔ ¬ RdbTraps F buf := by
  rw [loadFromFile, hfile]
  show (∃ r, ((load F buf).runAt now s).1 = .ok r) ↔ _
  rw [load]
  by_cases hmagic : buf.length < 9 ∨ buf.take 5 ≠ rdbMagic
  · rw [if_pos hmagic]
    refine ⟨fun _ => ?_, fun _ => ⟨_, rfl⟩⟩
    rintro ⟨version, tail, hversion, rfl, -⟩
    have hmagic' : rdbMagic.length = 5 := rfl
    rcases hmagic with hshort | hmagic
    · simp only [List.length_append] at hshort
      omega
    · rw [List.append_assoc, ← hmagic', List.take_left] at hmagic
      exact hmagic rfl
  · obtain ⟨hlong, hmagic'⟩ := not_or.mp hmagic
    obtain ⟨version, tail, hversion, rfl⟩ := header_split (Nat.not_lt.mp hlong) (not_not.mp hmagic')
    have hhead : (rdbMagic ++ version).length = 9 := by
      rw [List.length_append, hversion]
      rfl
    have hloop := loadLoop_ok (F := F) now.unixMs now ((rdbMagic ++ version ++ tail).length + 1)
      (rdbMagic ++ version) tail s (by rw [List.length_append]; omega) hlen
    rw [hhead] at hloop
    rw [if_neg hmagic]
    refine hloop.trans (not_congr ⟨fun h => ⟨version, tail, hversion, rfl, h⟩, ?_⟩)
    rintro ⟨version', tail', hversion', heq, h⟩
    have hhead' : (rdbMagic ++ version).length = (rdbMagic ++ version').length := by
      rw [List.length_append, List.length_append, hversion, hversion']
    rw [(List.append_inj heq hhead').2]
    exact h

namespace Traps

def path : PathBuf := Str.utf8 "dump.rdb"

def holding (bytes : Bytes) : FileSystem :=
  let created := FileSystem.empty.create path
  created.2.write created.1 bytes

/-- What a save of one string writes. -/
def savedFile : Bytes :=
  savedBytes bitText .sorted ⟨0, 0⟩
    (Store.empty.put (Str.lit "k") (some (.string (Str.utf8 "v"))) none)

/-- The header and an expiration time, at which the file was cut. -/
def cutFile : Bytes := rdbMagic ++ rdbVersion ++ opExpireTimeMs :: toLeBytes 1700000000000

end Traps

open Traps

/-- A file of whole records loads. -/
theorem load_ends_whole :
    ((loadFromFile bitText (holding savedFile) Traps.path).runAt ⟨0, 0⟩ Store.empty).1 =
        .ok (.ok ()) ∧ ¬ RdbTraps bitText savedFile := by
  have hload : ((loadFromFile bitText (holding savedFile) Traps.path).runAt ⟨0, 0⟩
      Store.empty).1 = .ok (.ok ()) := rfl
  exact ⟨hload, (load_ends bitText _ Traps.path ⟨0, 0⟩ Store.empty rfl (by decide +kernel)).mp
    ⟨_, hload⟩⟩

theorem load_panics : ¬ ∀ (F : FloatText) (fs : FileSystem) (path : PathBuf) (now : Reading)
    (s : Store) (buf : Bytes), fs.read path = some buf → buf.length ≤ isizeMax →
      ∃ r, ((loadFromFile F fs path).runAt now s).1 = .ok r := by
  intro h
  obtain ⟨r, hr⟩ :=
    h bitText (holding cutFile) Traps.path ⟨0, 0⟩ Store.empty cutFile rfl (by decide)
  have hpanic : ((loadFromFile bitText (holding cutFile) Traps.path).runAt ⟨0, 0⟩ Store.empty).1 =
      .error .indexOutOfBounds := rfl
  cases hpanic.symm.trans hr

end FireRedis
