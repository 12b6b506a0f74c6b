import FireRedis.Resp.Value

/-!
# The RESP decoder (resp.rs)

`parseValue` classifies the front of a buffer: a value and the bytes it takes,
`none` for an incomplete frame, or a fault. The source recurses on array
elements; `parseValueFuel` bounds that recursion and `parseValue_eq` restores
the source's own equation. `Vec::with_capacity` stops the task with a panic when
the request is beyond `isize::MAX` bytes, which is a fault here.
-/

namespace FireRedis

/-- `RespError::Invalid` with its text, or the panic of `Vec::with_capacity`. -/
inductive RespFault where
  | invalid (msg : Str)
  | capacityOverflow

abbrev ParseResult := Except RespFault (Option (Value × ℕ))

def findCrlf : Bytes → Option ℕ
  | a :: b :: rest =>
    if a = 0x0D ∧ b = 0x0A then some 0 else (findCrlf (b :: rest)).map (· + 1)
  | _ => none

-- The line without its CR LF, and the bytes it takes from the start of `buf`.
def parseLine (buf : Bytes) (start : ℕ) : Option (Bytes × ℕ) :=
  if start > buf.length then none
  else (findCrlf (buf.drop start)).map fun rel => ((buf.drop start).take rel, start + rel + 2)

def parseSimpleString (buf : Bytes) : ParseResult :=
  match parseLine buf 1 with
  | none => .ok none
  | some (line, consumed) => .ok (some (.simpleString (Str.fromUtf8Lossy line), consumed))

def parseError (buf : Bytes) : ParseResult :=
  match parseLine buf 1 with
  | none => .ok none
  | some (line, consumed) => .ok (some (.error (Str.fromUtf8Lossy line), consumed))

/-- A line that must be the text of an `i64`; `what` names it in the error. -/
def parseLineI64 (what : String) (line : Bytes) : Except RespFault Int64 :=
  match Str.fromUtf8 line with
  | none => .error (.invalid (Str.lit "Invalid " ++ Str.lit what ++ Str.lit " bytes"))
  | some s =>
    match Decimal.parseI64 s.bytes with
    | none => .error (.invalid (Str.lit "Invalid " ++ Str.lit what ++ Str.lit ": " ++ s))
    | some n => .ok n

def parseInteger (buf : Bytes) : ParseResult :=
  match parseLine buf 1 with
  | none => .ok none
  | some (line, consumed) => do
    let num ← parseLineI64 "integer" line
    return some (.integer num, consumed)

def parseBulkString (buf : Bytes) : ParseResult :=
  match parseLine buf 1 with
  | none => .ok none
  | some (line, offset) => do
    let len ← parseLineI64 "bulk length" line
    if len.toInt < 0 then
      return some (.null, offset)
    else
      let len := len.toInt.toNat
      if buf.length < offset + len + 2 then
        return none
      else if (buf.drop (offset + len)).take 2 ≠ crlf then
        .error (.invalid (Str.lit "Bulk string missing CRLF terminator"))
      else
        return some (.bulkString (some ((buf.drop offset).take len)), offset + len + 2)

/-- The element loop of `parse_array`, with the elements read so far and the
offset behind them. -/
def parseItems (parse : Bytes → ParseResult) (buf : Bytes) :
    ℕ → ℕ → List Value → Except RespFault (Option (List Value × ℕ))
  | 0, offset, items => .ok (some (items, offset))
  | n + 1, offset, items => do
    match ← parse (buf.drop offset) with
    | some (value, consumed) => parseItems parse buf n (offset + consumed) (items ++ [value])
    | none => return none

def parseArray (parse : Bytes → ParseResult) (buf : Bytes) : ParseResult :=
  match parseLine buf 1 with
  | none => .ok none
  | some (line, offset) => do
    let len ← parseLineI64 "array length" line
    if len.toInt < 0 then
      return some (.null, offset)
    else
      let len := len.toInt.toNat
      if len * sizeOfValue > isizeMax then
        .error .capacityOverflow
      else
        match ← parseItems parse buf len offset [] with
        | some (items, offset) => return some (.array (some items), offset)
        | none => return none

/-- The body of `parse_value`, over the parser used for array elements. -/
def parseStep (parse : Bytes → ParseResult) (buf : Bytes) : ParseResult :=
  match buf with
  | [] => .ok none
  | t :: _ =>
    match t with
    | 0x2B => parseSimpleString buf
    | 0x2D => parseError buf
    | 0x3A => parseInteger buf
    | 0x24 => parseBulkString buf
    | 0x2A => parseArray parse buf
    | t => .error (.invalid
        (Str.lit "Unknown type: " ++ Str.fromUtf8Lossy (Decimal.decimal t.toNat)))

def parseValueFuel : ℕ → Bytes → ParseResult
  | 0, _ => .ok none
  | fuel + 1, buf => parseStep (parseValueFuel fuel) buf

def parseValue (buf : Bytes) : ParseResult := parseValueFuel (buf.length + 1) buf

/-- `Decoder::decode`: the frame, and the buffer after `src.advance`. -/
def decode (src : Bytes) : Except RespFault (Option Value) × Bytes :=
  if src = [] then (.ok none, src)
  else
    match parseValue src with
    | .ok (some (value, consumed)) => (.ok (some value), src.drop consumed)
    | .ok none => (.ok none, src)
    | .error e => (.error e, src)

/-! ### Lines -/

theorem findCrlf_eq_none (buf : Bytes) : findCrlf buf = none ↔ ¬ crlf <:+: buf := by
  induction buf with
  | nil => simp [findCrlf, crlf]
  | cons a rest ih =>
    cases rest with
    | nil =>
      have hn : ¬ crlf <:+: [a] := fun h => by simpa [crlf] using h.length_le
      simp [findCrlf, hn]
    | cons b rest =>
      rw [findCrlf, List.infix_cons_iff]
      split
      · rename_i h
        obtain ⟨rfl, rfl⟩ := h
        simp [crlf]
      · rename_i h
        rw [Option.map_eq_none_iff, ih, not_or]
        refine ⟨fun hi => ⟨fun hp => h ?_, hi⟩, fun hi => hi.2⟩
        have h2 := List.cons_prefix_cons.mp hp
        exact ⟨h2.1.symm, (List.cons_prefix_cons.mp h2.2).1.symm⟩

/-- A text without CR LF ends where its terminator starts, whatever follows. -/
theorem findCrlf_append (line rest : Bytes) (h : ¬ crlf <:+: line) :
    findCrlf (line ++ crlf ++ rest) = some line.length := by
  induction line with
  | nil => simp [findCrlf, crlf]
  | cons a line ih =>
    have hline : ¬ crlf <:+: line := fun hc => h (List.infix_cons_iff.mpr (Or.inr hc))
    have ih := ih hline
    cases line with
    | nil =>
      have ha : ¬ (a = 0x0D ∧ (0x0D : UInt8) = 0x0A) := by
        rintro ⟨-, h2⟩
        exact absurd h2 (by decide)
      show (if a = 0x0D ∧ (0x0D : UInt8) = 0x0A then some 0
        else (findCrlf (crlf ++ rest)).map (· + 1)) = some 1
      rw [if_neg ha, show crlf ++ rest = [] ++ crlf ++ rest from rfl, ih]
      rfl
    | cons b line =>
      have ha : ¬ (a = 0x0D ∧ b = 0x0A) := by
        rintro ⟨rfl, rfl⟩
        exact h ⟨[], line, rfl⟩
      show (if a = 0x0D ∧ b = 0x0A then some 0
        else (findCrlf (b :: line ++ crlf ++ rest)).map (· + 1)) = some ((b :: line).length + 1)
      rw [if_neg ha, ih]
      rfl

theorem findCrlf_eq_some {buf : Bytes} {n : ℕ} (h : findCrlf buf = some n) :
    ∃ line rest, buf = line ++ crlf ++ rest ∧ line.length = n ∧ ¬ crlf <:+: line := by
  induction buf generalizing n with
  | nil => simp [findCrlf] at h
  | cons a tail ih =>
    cases tail with
    | nil => simp [findCrlf] at h
    | cons b tail =>
      rw [findCrlf] at h
      split at h
      · rename_i hab
        obtain ⟨rfl, rfl⟩ := hab
        obtain rfl : 0 = n := by simpa using h
        exact ⟨[], tail, rfl, rfl, by simp [crlf]⟩
      · rename_i hab
        obtain ⟨m, hm, rfl⟩ := Option.map_eq_some_iff.mp h
        obtain ⟨line, rest, hbuf, hlen, hline⟩ := ih hm
        refine ⟨a :: line, rest, by rw [hbuf]; rfl, by simp [hlen], fun hc => ?_⟩
        rcases List.infix_cons_iff.mp hc with hp | hi
        · obtain ⟨ha, hb⟩ := List.cons_prefix_cons.mp hp
          cases line with
          | nil =>
            have hnil := List.prefix_nil.mp hb
            cases hnil
          | cons c line =>
            have hc2 := (List.cons_prefix_cons.mp hb).1
            have hbc : b = c := (List.cons.inj hbuf).1
            exact hab ⟨ha.symm, hbc.trans hc2.symm⟩
        · exact hline hi

/-- A parsed line: the tag byte, the text, CR LF, and what follows. -/
theorem parseLine_eq_some {t : UInt8} {tail line : Bytes} {n : ℕ}
    (h : parseLine (t :: tail) 1 = some (line, n)) :
    ∃ rest, tail = line ++ crlf ++ rest ∧ n = line.length + 3 ∧ ¬ crlf <:+: line := by
  simp only [parseLine, List.length_cons, List.drop_succ_cons, List.drop_zero] at h
  rw [if_neg (by omega)] at h
  obtain ⟨rel, hrel, he⟩ := Option.map_eq_some_iff.mp h
  obtain ⟨l, rest, htail, hlen, hl⟩ := findCrlf_eq_some hrel
  obtain ⟨h1, h2⟩ := Prod.mk.inj he
  have hline : line = l := by
    rw [← h1, htail, List.append_assoc, ← hlen, List.take_left]
  subst hline
  exact ⟨rest, htail, by omega, hl⟩

theorem parseLine_line (t : UInt8) (line rest : Bytes) (h : ¬ crlf <:+: line) :
    parseLine (t :: (line ++ crlf ++ rest)) 1 = some (line, line.length + 3) := by
  simp only [parseLine, List.length_cons, List.drop_succ_cons, List.drop_zero]
  rw [if_neg (by omega), findCrlf_append line rest h, Option.map_some, List.append_assoc,
    List.take_left]
  congr 2
  omega

theorem parseLine_append {t : UInt8} {tail line : Bytes} {n : ℕ} (extra : Bytes)
    (h : parseLine (t :: tail) 1 = some (line, n)) :
    parseLine (t :: tail ++ extra) 1 = some (line, n) := by
  obtain ⟨rest, rfl, rfl, hl⟩ := parseLine_eq_some h
  rw [List.cons_append, List.append_assoc]
  exact parseLine_line t line (rest ++ extra) hl

end FireRedis
