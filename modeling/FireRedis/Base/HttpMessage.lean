import FireRedis.Base.Decimal

/-!
# Messages with a body of stated length

A message is a start line, header fields and a body. A reader takes lines up to
the empty one, and from what follows as many bytes as the length field says.
-/

namespace HttpMessage
open Decimal

def crlf : Bytes := [0x0D, 0x0A]

structure Message where
  startLine : Bytes
  fields : List (Bytes × Bytes)
  body : Bytes

def lengthName : Bytes :=
  [0x43, 0x6F, 0x6E, 0x74, 0x65, 0x6E, 0x74, 0x2D, 0x4C, 0x65, 0x6E, 0x67, 0x74, 0x68]

def contentLength (fields : List (Bytes × Bytes)) : Option ℕ :=
  (fields.find? fun f => f.1 = lengthName).bind fun f => parseNat f.2

/-! ### Writing -/

def renderField (f : Bytes × Bytes) : Bytes := f.1 ++ 0x3A :: 0x20 :: f.2 ++ crlf

def Message.render (m : Message) : Bytes :=
  m.startLine ++ crlf ++ m.fields.flatMap renderField ++ crlf ++ m.body

/-! ### Reading -/

/-- The line up to the first CR LF, and what follows it. -/
def takeLine : Bytes → Option (Bytes × Bytes)
  | [] => none
  | b :: rest =>
    if crlf.isPrefixOf (b :: rest) then some ([], rest.drop 1)
    else (takeLine rest).map fun p => (b :: p.1, p.2)

def parseField (line : Bytes) : Option (Bytes × Bytes) :=
  match line.dropWhile (· ≠ 0x3A) with
  | 0x3A :: 0x20 :: value => some (line.takeWhile (· ≠ 0x3A), value)
  | _ => none

def parseFields : ℕ → Bytes → Option (List (Bytes × Bytes) × Bytes)
  | 0, _ => none
  | fuel + 1, bs =>
    match takeLine bs with
    | none => none
    | some ([], rest) => some ([], rest)
    | some (line, rest) =>
      (parseField line).bind fun f => (parseFields fuel rest).map fun p => (f :: p.1, p.2)

/-- A message at the front of the bytes, and what follows it. -/
def parse (bs : Bytes) : Option (Message × Bytes) :=
  (takeLine bs).bind fun start =>
    (parseFields (start.2.length + 1) start.2).bind fun head =>
      (contentLength head.1).bind fun n =>
        if n ≤ head.2.length then
          some (⟨start.1, head.1, head.2.take n⟩, head.2.drop n)
        else none

/-! ### What is written is read -/

structure Message.WellFormed (m : Message) : Prop where
  startLine : 0x0D ∉ m.startLine
  names : ∀ f ∈ m.fields, 0x0D ∉ f.1 ∧ 0x3A ∉ f.1
  values : ∀ f ∈ m.fields, 0x0D ∉ f.2
  length : contentLength m.fields = some m.body.length

theorem takeLine_line {l : Bytes} (h : 0x0D ∉ l) (rest : Bytes) :
    takeLine (l ++ crlf ++ rest) = some (l, rest) := by
  induction l with
  | nil => rfl
  | cons b l ih =>
    obtain ⟨hb, hl⟩ : 0x0D ≠ b ∧ 0x0D ∉ l := by simpa using h
    have hpre : crlf.isPrefixOf (b :: (l ++ crlf ++ rest)) = false := by
      simp [crlf, List.isPrefixOf, hb]
    rw [List.cons_append, List.cons_append, takeLine, hpre, ih hl]
    rfl

theorem parseField_field {name : Bytes} (h : 0x3A ∉ name) (value : Bytes) :
    parseField (name ++ 0x3A :: 0x20 :: value) = some (name, value) := by
  have hall : ∀ b ∈ name, decide (b ≠ 0x3A) = true := by
    intro b hb
    rw [decide_eq_true_eq]
    rintro rfl
    exact h hb
  rw [parseField, List.dropWhile_append_of_pos hall, List.takeWhile_append_of_pos hall]
  simp

theorem parseFields_fields {fields : List (Bytes × Bytes)}
    (hnames : ∀ f ∈ fields, 0x0D ∉ f.1 ∧ 0x3A ∉ f.1) (hvalues : ∀ f ∈ fields, 0x0D ∉ f.2)
    (rest : Bytes) {fuel : ℕ} (hfuel : fields.length < fuel) :
    parseFields fuel (fields.flatMap renderField ++ crlf ++ rest) = some (fields, rest) := by
  induction fields generalizing fuel with
  | nil =>
    obtain ⟨n, rfl⟩ := Nat.exists_eq_add_of_lt hfuel
    rw [List.length_nil, Nat.zero_add, parseFields]
    rfl
  | cons f fields ih =>
    cases fuel with
    | zero => cases hfuel
    | succ fuel =>
      have hf := hnames f (List.mem_cons_self ..)
      have hline : 0x0D ∉ f.1 ++ 0x3A :: 0x20 :: f.2 := by
        simp [hf.1, hvalues f (List.mem_cons_self ..)]
      have hrest := ih (fun g hg => hnames g (List.mem_cons_of_mem f hg))
        (fun g hg => hvalues g (List.mem_cons_of_mem f hg)) (Nat.lt_of_succ_lt_succ hfuel)
      have hsplit : (f :: fields).flatMap renderField ++ crlf ++ rest =
          (f.1 ++ 0x3A :: 0x20 :: f.2) ++ crlf ++
            (fields.flatMap renderField ++ crlf ++ rest) := by
        simp only [List.flatMap_cons, renderField, List.append_assoc, List.cons_append]
      have hne : f.1 ++ 0x3A :: 0x20 :: f.2 ≠ [] := by simp
      obtain ⟨b, l, hcons⟩ := List.exists_cons_of_ne_nil hne
      rw [hsplit, parseFields, takeLine_line hline, hcons]
      show (parseField (b :: l)).bind _ = _
      rw [← hcons, parseField_field hf.2, Option.bind_some, hrest]
      rfl

theorem length_fields_le (fields : List (Bytes × Bytes)) :
    fields.length ≤ (fields.flatMap renderField).length := by
  induction fields with
  | nil => exact Nat.le_refl 0
  | cons f fields ih =>
    rw [List.flatMap_cons, List.length_append, List.length_cons, renderField]
    simp only [List.length_append, List.length_cons]
    omega

/-- A written message is read back, and nothing behind it is touched. -/
theorem parse_render {m : Message} (h : m.WellFormed) (rest : Bytes) :
    parse (m.render ++ rest) = some (m, rest) := by
  have hsplit : m.render ++ rest =
      m.startLine ++ crlf ++ (m.fields.flatMap renderField ++ crlf ++ (m.body ++ rest)) := by
    simp only [Message.render, List.append_assoc]
  have hfuel : m.fields.length <
      (m.fields.flatMap renderField ++ crlf ++ (m.body ++ rest)).length + 1 := by
    have hle := length_fields_le m.fields
    simp only [List.length_append]
    omega
  rw [hsplit, parse, takeLine_line h.startLine, Option.bind_some,
    parseFields_fields h.names h.values _ hfuel, Option.bind_some, h.length, Option.bind_some,
    if_pos (by simp), List.take_left, List.drop_left]

end HttpMessage
