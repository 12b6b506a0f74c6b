import FireRedis.Base.Decimal

/-!
# RESP values and their encoding (resp.rs)

`Value` is the wire value of the protocol. `encode` writes what
`Encoder::encode` appends to its destination. Predicates on a value at every
depth say when it can exist in memory and when it survives the wire.
-/

namespace FireRedis

inductive Value where
  | simpleString (s : Str)
  | error (s : Str)
  | integer (i : Int64)
  | bulkString (b : Option Bytes)
  | array (items : Option (List Value))
  | null

namespace Value

/-- Induction over the nesting of arrays. -/
theorem induction {P : Value → Prop} (simpleString : ∀ s, P (.simpleString s))
    (error : ∀ s, P (.error s)) (integer : ∀ i, P (.integer i))
    (bulkString : ∀ b, P (.bulkString b)) (arrayNone : P (.array none))
    (array : ∀ items, (∀ v ∈ items, P v) → P (.array (some items))) (null : P .null)
    (v : Value) : P v := by
  refine @Value.rec P (fun o => ∀ items, o = some items → ∀ v ∈ items, P v)
    (fun items => ∀ v ∈ items, P v)
    simpleString error integer bulkString ?_ null ?_ ?_ ?_ ?_ v
  · intro o ho
    cases o with
    | none => exact arrayNone
    | some items => exact array items (ho items rfl)
  · intro items h
    cases h
  · intro items ih items' h
    cases h
    exact ih
  · intro v hv
    cases hv
  · intro v vs hv hvs u hu
    rcases List.mem_cons.mp hu with rfl | hu
    · exact hv
    · exact hvs u hu

end Value

/-! ### Encoder -/

def crlf : Bytes := [0x0D, 0x0A]

mutual

def encode : Value → Bytes
  | .simpleString s => 0x2B :: (s.bytes ++ crlf)
  | .error s => 0x2D :: (s.bytes ++ crlf)
  | .integer i => 0x3A :: (Decimal.displayI64 i ++ crlf)
  | .bulkString none => Str.utf8 "$-1\r\n"
  | .null => Str.utf8 "$-1\r\n"
  | .bulkString (some b) => 0x24 :: (Decimal.decimal b.length ++ crlf) ++ b ++ crlf
  | .array none => Str.utf8 "*-1\r\n"
  | .array (some arr) => 0x2A :: (Decimal.decimal arr.length ++ crlf) ++ encodeItems arr

def encodeItems : List Value → Bytes
  | [] => []
  | item :: items => encode item ++ encodeItems items

end

theorem encodeItems_eq (items : List Value) : encodeItems items = items.flatMap encode := by
  induction items with
  | nil => rfl
  | cons v items ih => rw [encodeItems, ih, List.flatMap_cons]

theorem encode_ne_nil (v : Value) : encode v ≠ [] := by
  match v with
  | .simpleString _ | .error _ | .integer _ | .bulkString (some _) | .array (some _) =>
    simp [encode]
  | .null | .bulkString none | .array none =>
    rw [encode]
    decide

/-! ### Predicates at every depth -/

mutual

def Value.All (P : Value → Prop) : Value → Prop
  | .array (some items) => P (.array (some items)) ∧ Value.AllItems P items
  | .array none => P (.array none)
  | .simpleString s => P (.simpleString s)
  | .error s => P (.error s)
  | .integer i => P (.integer i)
  | .bulkString b => P (.bulkString b)
  | .null => P .null

def Value.AllItems (P : Value → Prop) : List Value → Prop
  | [] => True
  | item :: items => Value.All P item ∧ Value.AllItems P items

end

theorem Value.allItems_iff (P : Value → Prop) (items : List Value) :
    Value.AllItems P items ↔ ∀ v ∈ items, Value.All P v := by
  induction items with
  | nil => simp [Value.AllItems]
  | cons v items ih => rw [Value.AllItems, ih, List.forall_mem_cons]

theorem Value.all_array (P : Value → Prop) (items : List Value) :
    Value.All P (.array (some items)) ↔
      P (.array (some items)) ∧ ∀ v ∈ items, Value.All P v := by
  rw [Value.All, Value.allItems_iff]

/-- `size_of::<Value>()`: a tag and the four words of `Bytes`. -/
def sizeOfValue : ℕ := 40

/- `Fits`, `NoCrlf` and `Wire` are the conditions at one level; `Value.All`
carries them through the arrays. -/

/-- The vectors of a value are within what `Vec` and `Bytes` can allocate. -/
def Value.FitsHere : Value → Prop
  | .bulkString (some b) => b.length ≤ isizeMax
  | .array (some items) => items.length * sizeOfValue ≤ isizeMax
  | _ => True

abbrev Value.Fits : Value → Prop := Value.All Value.FitsHere

def Value.NoCrlfHere : Value → Prop
  | .simpleString s => ¬ crlf <:+: s.bytes
  | .error s => ¬ crlf <:+: s.bytes
  | _ => True

/-- No simple string or error text holds CR LF. -/
abbrev Value.NoCrlf : Value → Prop := Value.All Value.NoCrlfHere

def Value.NormalHere : Value → Prop
  | .bulkString none => False
  | .array none => False
  | _ => True

/-- Absent values are spelled `null`, as the decoder does. -/
abbrev Value.Normal : Value → Prop := Value.All Value.NormalHere

mutual

def norm : Value → Value
  | .bulkString none => .null
  | .array none => .null
  | .array (some items) => .array (some (normItems items))
  | v => v

def normItems : List Value → List Value
  | [] => []
  | item :: items => norm item :: normItems items

end

theorem normItems_eq (items : List Value) : normItems items = items.map norm := by
  induction items with
  | nil => rfl
  | cons v items ih => rw [normItems, ih, List.map_cons]

theorem norm_of_normal (v : Value) (h : v.Normal) : norm v = v := by
  induction v using Value.induction with
  | simpleString s => rfl
  | error s => rfl
  | integer i => rfl
  | bulkString b =>
    cases b with
    | none => exact h.elim
    | some b => rfl
  | arrayNone => exact h.elim
  | array items ih =>
    rw [Value.Normal, Value.all_array] at h
    have hm : items.map norm = items := by
      rw [List.map_congr_left fun v hv => ih v hv (h.2 v hv)]
      exact List.map_id _
    rw [norm, normItems_eq, hm]
  | null => rfl

end FireRedis
