import FireRedis.Resp.Stable

/-!
# The decoder with its checks (resp.rs)

The functions of the decoder once more, with every operation that can panic
written out: slices, sums of `usize`, `Vec::with_capacity` and `advance`. As
long as none of them panics they compute what the functions without checks do.
-/

namespace FireRedis

inductive Trap where
  | rangeOutOfBounds
  | arithmeticOverflow
  | capacityOverflow
  | advancePastEnd

/-- `RespError::Invalid`, or a panic. -/
inductive CheckedFault where
  | invalid (msg : Str)
  | trap (t : Trap)

abbrev Checked (α : Type) := Except CheckedFault α

namespace Checked

def trap {α : Type} (t : Trap) : Checked α := .error (.trap t)

/-! ### Operations that can panic -/

/-- `&buf[i..j]`. -/
def slice (buf : Bytes) (i j : ℕ) : Checked Bytes :=
  if i ≤ j ∧ j ≤ buf.length then return (buf.drop i).take (j - i) else trap .rangeOutOfBounds

/-- `&buf[i..]`. -/
def sliceFrom (buf : Bytes) (i : ℕ) : Checked Bytes :=
  if i ≤ buf.length then return buf.drop i else trap .rangeOutOfBounds

def add (a b : ℕ) : Checked ℕ := if a + b < 2 ^ 64 then return a + b else trap .arithmeticOverflow

def withCapacity (n size : ℕ) : Checked Unit :=
  if n * size > isizeMax then trap .capacityOverflow else return ()

/-- `src.advance(n)`. -/
def advance (src : Bytes) (n : ℕ) : Checked Bytes :=
  if n > src.length then trap .advancePastEnd else return src.drop n

def ofFault : RespFault → CheckedFault
  | .invalid msg => .invalid msg
  | .capacityOverflow => .trap .capacityOverflow

def parseLineI64 (what : String) (line : Bytes) : Checked Int64 :=
  (FireRedis.parseLineI64 what line).mapError ofFault

/-! ### The decoder -/

abbrev Result := Checked (Option (Value × ℕ))

def parseLine (buf : Bytes) (start : ℕ) : Checked (Option (Bytes × ℕ)) := do
  if start > buf.length then
    return none
  else
    match findCrlf (← sliceFrom buf start) with
    | none => return none
    | some rel =>
      let stop ← add start rel
      let consumed ← add stop 2
      return some (← slice buf start stop, consumed)

def parseSimpleString (buf : Bytes) : Result := do
  match ← parseLine buf 1 with
  | none => return none
  | some (line, consumed) => return some (.simpleString (Str.fromUtf8Lossy line), consumed)

def parseError (buf : Bytes) : Result := do
  match ← parseLine buf 1 with
  | none => return none
  | some (line, consumed) => return some (.error (Str.fromUtf8Lossy line), consumed)

def parseInteger (buf : Bytes) : Result := do
  match ← parseLine buf 1 with
  | none => return none
  | some (line, consumed) =>
    let num ← parseLineI64 "integer" line
    return some (.integer num, consumed)

def parseBulkString (buf : Bytes) : Result := do
  match ← parseLine buf 1 with
  | none => return none
  | some (line, offset) =>
    let len ← parseLineI64 "bulk length" line
    if len.toInt < 0 then
      return some (.null, offset)
    else
      let len := len.toInt.toNat
      let stop ← add offset len
      if buf.length < (← add stop 2) then
        return none
      else
        let data ← slice buf offset stop
        let terminator ← slice buf stop (← add stop 2)
        if terminator ≠ crlf then
          .error (.invalid (Str.lit "Bulk string missing CRLF terminator"))
        else
          return some (.bulkString (some data), ← add stop 2)

def parseItems (parse : Bytes → Result) (buf : Bytes) :
    ℕ → ℕ → List Value → Checked (Option (List Value × ℕ))
  | 0, offset, items => return some (items, offset)
  | n + 1, offset, items => do
    match ← parse (← sliceFrom buf offset) with
    | some (value, consumed) =>
      parseItems parse buf n (← add offset consumed) (items ++ [value])
    | none => return none

def parseArray (parse : Bytes → Result) (buf : Bytes) : Result := do
  match ← parseLine buf 1 with
  | none => return none
  | some (line, offset) =>
    let len ← parseLineI64 "array length" line
    if len.toInt < 0 then
      return some (.null, offset)
    else
      let len := len.toInt.toNat
      withCapacity len sizeOfValue
      match ← parseItems parse buf len offset [] with
      | some (items, offset) => return some (.array (some items), offset)
      | none => return none

def parseStep (parse : Bytes → Result) (buf : Bytes) : Result :=
  match buf with
  | [] => .ok none
  | t :: _ =>
    match t with
    | 0x2B => parseSimpleString buf
    | 0x2D => parseError buf
    | 0x3A => parseInteger buf
    | 0x24 => parseBulkString buf
    | 0x2A => parseArray parse buf
    | t => .error (.invalid
        (Str.lit "Unknown type: " ++ Str.fromUtf8Lossy (Decimal.decimal t.toNat)))

def parseValueFuel : ℕ → Bytes → Result
  | 0, _ => .ok none
  | fuel + 1, buf => parseStep (parseValueFuel fuel) buf

def parseValue (buf : Bytes) : Result := parseValueFuel (buf.length + 1) buf

/-- The frame, and the buffer after it. -/
def decode (src : Bytes) : Checked (Option Value × Bytes) := do
  if src = [] then
    return (none, src)
  else
    match ← parseValue src with
    | some (value, consumed) => return (some value, ← advance src consumed)
    | none => return (none, src)

end Checked

/-! ### What the checks leave -/

/-- The same result, unless a check panics. -/
def Guards {α : Type} (x : Checked α) (y : Except RespFault α) : Prop :=
  x = y.mapError Checked.ofFault ∨ ∃ t, x = Checked.trap t

namespace Guards

open Checked

variable {α β : Type}

theorem pure (a : α) : Guards (Pure.pure a) (Pure.pure a) := Or.inl rfl

theorem error (msg : Str) : Guards (.error (.invalid msg) : Checked α) (.error (.invalid msg)) :=
  Or.inl rfl

theorem bind {x : Checked α} {y : Except RespFault α} {f : α → Checked β}
    {g : α → Except RespFault β} (h : Guards x y) (hf : ∀ a, Guards (f a) (g a)) :
    Guards (x >>= f) (y >>= g) := by
  rcases h with rfl | ⟨t, rfl⟩
  · cases y with
    | error e => exact Or.inl rfl
    | ok a => exact hf a
  · exact Or.inr ⟨t, rfl⟩

/-- A check that passes with `a` or panics. -/
theorem check {x : Checked α} {a : α} {f : α → Checked β} {y : Except RespFault β}
    (h : Guards x (Pure.pure a)) (hf : Guards (f a) y) : Guards (x >>= f) y := by
  rcases h with rfl | ⟨t, rfl⟩
  · exact hf
  · exact Or.inr ⟨t, rfl⟩

theorem guarded {p : Prop} [Decidable p] (a : α) (t : Trap) :
    Guards (if p then Pure.pure a else trap t) (Pure.pure a) := by
  split
  · exact pure a
  · exact Or.inr ⟨t, rfl⟩

theorem slice (buf : Bytes) (i j : ℕ) :
    Guards (Checked.slice buf i j) (Pure.pure ((buf.drop i).take (j - i))) := guarded _ _

theorem sliceFrom (buf : Bytes) (i : ℕ) :
    Guards (Checked.sliceFrom buf i) (Pure.pure (buf.drop i)) := guarded _ _

theorem add (a b : ℕ) : Guards (Checked.add a b) (Pure.pure (a + b)) := guarded _ _

theorem parseLineI64 (what : String) (line : Bytes) :
    Guards (Checked.parseLineI64 what line) (FireRedis.parseLineI64 what line) := Or.inl rfl

theorem parseLine (buf : Bytes) (start : ℕ) :
    Guards (Checked.parseLine buf start) (Pure.pure (FireRedis.parseLine buf start)) := by
  unfold Checked.parseLine FireRedis.parseLine
  split
  · exact pure none
  · refine check (sliceFrom buf start) ?_
    cases findCrlf (buf.drop start) with
    | none => exact pure none
    | some rel =>
      refine check (add start rel) (check (add _ 2) (check (slice buf start _) ?_))
      rw [Nat.add_sub_cancel_left]
      exact pure _

theorem parseSimpleString (buf : Bytes) :
    Guards (Checked.parseSimpleString buf) (FireRedis.parseSimpleString buf) := by
  refine check (parseLine buf 1) ?_
  unfold FireRedis.parseSimpleString
  cases FireRedis.parseLine buf 1 <;> exact pure _

theorem parseError (buf : Bytes) :
    Guards (Checked.parseError buf) (FireRedis.parseError buf) := by
  refine check (parseLine buf 1) ?_
  unfold FireRedis.parseError
  cases FireRedis.parseLine buf 1 <;> exact pure _

theorem parseInteger (buf : Bytes) :
    Guards (Checked.parseInteger buf) (FireRedis.parseInteger buf) := by
  refine check (parseLine buf 1) ?_
  unfold FireRedis.parseInteger
  cases FireRedis.parseLine buf 1 with
  | none => exact pure _
  | some r => exact bind (parseLineI64 "integer" r.1) fun num => pure _

theorem parseBulkString (buf : Bytes) :
    Guards (Checked.parseBulkString buf) (FireRedis.parseBulkString buf) := by
  refine check (parseLine buf 1) ?_
  unfold FireRedis.parseBulkString
  cases FireRedis.parseLine buf 1 with
  | none => exact pure _
  | some r =>
    refine bind (parseLineI64 "bulk length" r.1) fun len => ?_
    split
    · exact pure _
    · dsimp only
      refine check (add r.2 _) (check (add _ 2) ?_)
      split
      · exact pure _
      · refine check (slice buf _ _) (check (add _ 2) (check (slice buf _ _) ?_))
        rw [Nat.add_sub_cancel_left, Nat.add_sub_cancel_left]
        split
        · exact error _
        · exact check (add _ 2) (pure _)

theorem parseItems {parse : Bytes → Result} {parse' : Bytes → ParseResult}
    (h : ∀ buf, Guards (parse buf) (parse' buf)) (buf : Bytes) (n offset : ℕ)
    (items : List Value) :
    Guards (Checked.parseItems parse buf n offset items)
      (FireRedis.parseItems parse' buf n offset items) := by
  induction n generalizing offset items with
  | zero => exact pure _
  | succ n ih =>
    refine check (sliceFrom buf offset) (bind (h _) fun r => ?_)
    cases r with
    | none => exact pure none
    | some r => exact check (add offset r.2) (ih _ _)

theorem parseArray {parse : Bytes → Result} {parse' : Bytes → ParseResult}
    (h : ∀ buf, Guards (parse buf) (parse' buf)) (buf : Bytes) :
    Guards (Checked.parseArray parse buf) (FireRedis.parseArray parse' buf) := by
  refine check (parseLine buf 1) ?_
  unfold FireRedis.parseArray
  cases FireRedis.parseLine buf 1 with
  | none => exact pure _
  | some r =>
    refine bind (parseLineI64 "array length" r.1) fun len => ?_
    split
    · exact pure _
    · dsimp only [withCapacity]
      split
      · exact Or.inl rfl
      · refine bind (parseItems h buf _ _ _) fun r => ?_
        cases r <;> exact pure _

theorem parseStep {parse : Bytes → Result} {parse' : Bytes → ParseResult}
    (h : ∀ buf, Guards (parse buf) (parse' buf)) (buf : Bytes) :
    Guards (Checked.parseStep parse buf) (FireRedis.parseStep parse' buf) := by
  cases buf with
  | nil => exact pure none
  | cons t tail =>
    by_cases h1 : t = 0x2B
    · subst h1
      exact parseSimpleString (0x2B :: tail)
    by_cases h2 : t = 0x2D
    · subst h2
      exact parseError (0x2D :: tail)
    by_cases h3 : t = 0x3A
    · subst h3
      exact parseInteger (0x3A :: tail)
    by_cases h4 : t = 0x24
    · subst h4
      exact parseBulkString (0x24 :: tail)
    by_cases h5 : t = 0x2A
    · subst h5
      exact parseArray h (0x2A :: tail)
    · simp only [Checked.parseStep, FireRedis.parseStep]
      exact error _

theorem parseValueFuel (fuel : ℕ) (buf : Bytes) :
    Guards (Checked.parseValueFuel fuel buf) (FireRedis.parseValueFuel fuel buf) := by
  induction fuel generalizing buf with
  | zero => exact pure none
  | succ fuel ih => exact parseStep ih buf

end Guards

/-- Where no check panics, the decoder gives what it gives without checks. -/
theorem checked_decode (src : Bytes) :
    (∃ t, Checked.decode src = Checked.trap t) ∨
      Checked.decode src = ((decode src).1.map fun frame => (frame, (decode src).2)).mapError
        Checked.ofFault := by
  by_cases hsrc : src = []
  · subst hsrc
    exact Or.inr rfl
  have hparse : Guards (Checked.parseValue src) (parseValue src) := Guards.parseValueFuel _ src
  rw [Checked.decode, if_neg hsrc, decode_eq]
  rcases hparse with h | ⟨t, h⟩
  · rw [h]
    rcases parseValue src with fault | _ | ⟨value, consumed⟩
    · exact Or.inr rfl
    · exact Or.inr rfl
    · by_cases hend : consumed > src.length
      · refine Or.inl ⟨.advancePastEnd, ?_⟩
        show (Checked.advance src consumed >>= fun rest => _) = _
        rw [Checked.advance, if_pos hend]
        rfl
      · refine Or.inr ?_
        show (Checked.advance src consumed >>= fun rest => _) = _
        rw [Checked.advance, if_neg hend]
        rfl
  · rw [h]
    exact Or.inl ⟨t, rfl⟩

end FireRedis
