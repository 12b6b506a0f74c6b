import FireRedis.Base.Incremental
import FireRedis.Resp.Parse

/-!
# The decoder is incremental

A frame or a fault found at the front of a buffer is found again in every
longer buffer, each frame takes at least three bytes, and what the decoder
accepts is a wire value: allocatable, without CR LF in its texts and without the
absent spellings. So `decode` is a lawful incremental decoder.
-/

namespace FireRedis

def Value.Wire (v : Value) : Prop := v.Fits ∧ v.NoCrlf ∧ v.Normal

theorem Value.wire_array (items : List Value) :
    (Value.array (some items)).Wire ↔
      items.length * sizeOfValue ≤ isizeMax ∧ ∀ v ∈ items, v.Wire := by
  unfold Value.Wire
  rw [Value.Fits, Value.NoCrlf, Value.Normal, Value.all_array, Value.all_array, Value.all_array]
  constructor
  · rintro ⟨⟨h1, h2⟩, ⟨-, h3⟩, -, h4⟩
    exact ⟨h1, fun v hv => ⟨h2 v hv, h3 v hv, h4 v hv⟩⟩
  · rintro ⟨h1, h2⟩
    exact ⟨⟨h1, fun v hv => (h2 v hv).1⟩, ⟨trivial, fun v hv => (h2 v hv).2.1⟩, trivial,
      fun v hv => (h2 v hv).2.2⟩

/-! ### The recursion of the source -/

theorem parseItems_congr {p q : Bytes → ParseResult} {buf : Bytes}
    (h : ∀ offset, 0 < offset → p (buf.drop offset) = q (buf.drop offset)) (n offset : ℕ)
    (items : List Value) (ho : 0 < offset) :
    parseItems p buf n offset items = parseItems q buf n offset items := by
  induction n generalizing offset items with
  | zero => rfl
  | succ n ih =>
    simp only [parseItems, h offset ho]
    congr 1
    funext r
    cases r with
    | none => rfl
    | some r => exact ih _ _ (by omega)

theorem parseStep_congr {p q : Bytes → ParseResult} {buf : Bytes}
    (h : ∀ offset, 0 < offset → p (buf.drop offset) = q (buf.drop offset)) :
    parseStep p buf = parseStep q buf := by
  cases buf with
  | nil => rfl
  | cons t tail =>
    have harr : parseArray p (t :: tail) = parseArray q (t :: tail) := by
      unfold parseArray
      cases hl : parseLine (t :: tail) 1 with
      | none => rfl
      | some r =>
        obtain ⟨line, offset⟩ := r
        obtain ⟨-, -, hn, -⟩ := parseLine_eq_some hl
        simp only [parseItems_congr h _ offset _ (by omega)]
    simp only [parseStep, harr]

theorem parseValueFuel_eq (fuel : ℕ) (buf : Bytes) (h : buf.length < fuel) :
    parseValueFuel fuel buf = parseValue buf := by
  have key : ∀ m (buf : Bytes), buf.length = m → ∀ f, m < f →
      parseValueFuel f buf = parseValueFuel (m + 1) buf := by
    intro m
    refine Nat.strongRecOn m (fun m ih => ?_)
    intro buf hm f hf
    cases buf with
    | nil =>
      obtain ⟨f, rfl⟩ : ∃ g, f = g + 1 := ⟨f - 1, by omega⟩
      rfl
    | cons t tail =>
      obtain ⟨f, rfl⟩ : ∃ g, f = g + 1 := ⟨f - 1, by omega⟩
      refine parseStep_congr fun offset ho => ?_
      have hlen : ((t :: tail).drop offset).length < m := by
        rw [List.length_drop, hm]
        simp only [List.length_cons] at hm
        omega
      rw [ih _ hlen _ rfl f (by omega), ih _ hlen _ rfl m hlen]
  exact key buf.length buf rfl fuel h

/-- The equation of `parse_value` in the source. -/
theorem parseValue_eq (buf : Bytes) : parseValue buf = parseStep parseValue buf := by
  cases buf with
  | nil => rfl
  | cons t tail =>
    show parseStep (parseValueFuel (t :: tail).length) (t :: tail) = _
    refine parseStep_congr fun offset ho => parseValueFuel_eq _ _ ?_
    rw [List.length_drop]
    simp only [List.length_cons]
    omega

/-! ### Frames and faults settle -/

structure Settles (p : Bytes → ParseResult) (buf : Bytes) : Prop where
  frame : ∀ {v n}, p buf = .ok (some (v, n)) →
    3 ≤ n ∧ n ≤ buf.length ∧ v.Wire ∧ ∀ extra, p (buf ++ extra) = .ok (some (v, n))
  fail : ∀ {e}, p buf = .error e → ∀ extra, p (buf ++ extra) = .error e

theorem settles_none {p : Bytes → ParseResult} {buf : Bytes} (h : p buf = .ok none) :
    Settles p buf :=
  ⟨fun hv => absurd (h.symm.trans hv) (by simp), fun he => absurd (h.symm.trans he) (by simp)⟩

theorem settles_error {p : Bytes → ParseResult} {buf : Bytes} {e : RespFault}
    (h : ∀ extra, p (buf ++ extra) = .error e) : Settles p buf := by
  have h0 := h []
  rw [List.append_nil] at h0
  refine ⟨fun hv => absurd (h0.symm.trans hv) (by simp), fun he extra => ?_⟩
  rw [h extra, ← h0, he]

theorem settles_frame {p : Bytes → ParseResult} {buf : Bytes} {v : Value} {n : ℕ}
    (h : ∀ extra, p (buf ++ extra) = .ok (some (v, n))) (h3 : 3 ≤ n) (hn : n ≤ buf.length)
    (hv : v.Wire) : Settles p buf := by
  have h0 := h []
  rw [List.append_nil] at h0
  refine ⟨fun hu => ?_, fun he => absurd (h0.symm.trans he) (by simp)⟩
  rw [h0] at hu
  cases hu
  exact ⟨h3, hn, hv, h⟩

theorem Settles.congr {p q : Bytes → ParseResult} {buf : Bytes} (hq : Settles q buf)
    (he : ∀ extra, p (buf ++ extra) = q (buf ++ extra)) : Settles p buf := by
  have he0 := he []
  rw [List.append_nil] at he0
  refine ⟨fun hv => ?_, fun hf extra => ?_⟩
  · rw [he0] at hv
    obtain ⟨h3, hn, hw, hext⟩ := hq.frame hv
    exact ⟨h3, hn, hw, fun extra => by rw [he extra, hext extra]⟩
  · rw [he0] at hf
    rw [he extra, hq.fail hf extra]

theorem noCrlf_lossy {line : Bytes} (h : ¬ crlf <:+: line) :
    ¬ crlf <:+: (Str.fromUtf8Lossy line).bytes := fun hc =>
  h (Utf8.lossy_pair (by decide) (by decide) line hc)

theorem line_length_le {tail line rest : Bytes} {t : UInt8} (h : tail = line ++ crlf ++ rest) :
    line.length + 3 ≤ (t :: tail).length := by
  have hc : crlf.length = 2 := rfl
  rw [h, List.length_cons, List.length_append, List.length_append, hc]
  omega

/-! ### Parsers that start with a line -/

def afterLine (body : Bytes → ℕ → Bytes → ParseResult) (buf : Bytes) : ParseResult :=
  match parseLine buf 1 with
  | none => .ok none
  | some (line, n) => body line n buf

/-- The line must hold a number; `what` names it in the error. -/
def afterNumber (what : String) (body : Int64 → ℕ → Bytes → ParseResult) : Bytes → ParseResult :=
  afterLine fun line n buf => do body (← parseLineI64 what line) n buf

theorem afterLine_run {body : Bytes → ℕ → Bytes → ParseResult} {buf line : Bytes} {n : ℕ}
    (hl : parseLine buf 1 = some (line, n)) : afterLine body buf = body line n buf := by
  rw [afterLine, hl]

theorem afterNumber_run {what : String} {body : Int64 → ℕ → Bytes → ParseResult}
    {buf line : Bytes} {n : ℕ} {i : Int64} (hl : parseLine buf 1 = some (line, n))
    (hi : parseLineI64 what line = .ok i) : afterNumber what body buf = body i n buf := by
  rw [afterNumber, afterLine_run hl, hi]
  rfl

/-- What follows the line settles in the buffer that the line was found in. -/
theorem settles_afterLine {body : Bytes → ℕ → Bytes → ParseResult} {t : UInt8} {tail : Bytes}
    (h : ∀ line n, 3 ≤ n → n ≤ (t :: tail).length → ¬ crlf <:+: line →
      Settles (body line n) (t :: tail)) : Settles (afterLine body) (t :: tail) := by
  cases hl : parseLine (t :: tail) 1 with
  | none => exact settles_none (by rw [afterLine, hl])
  | some r =>
    obtain ⟨line, n⟩ := r
    obtain ⟨rest, htail, hn, hline⟩ := parseLine_eq_some hl
    have hle := line_length_le (t := t) htail
    have hbody := h line n (by omega) (by omega) hline
    exact hbody.congr fun extra => afterLine_run (parseLine_append extra hl)

theorem settles_afterNumber {what : String} {body : Int64 → ℕ → Bytes → ParseResult} {t : UInt8}
    {tail : Bytes} (h : ∀ i n, 3 ≤ n → n ≤ (t :: tail).length → Settles (body i n) (t :: tail)) :
    Settles (afterNumber what body) (t :: tail) := by
  refine settles_afterLine fun line n h3 hn hline => ?_
  cases hi : parseLineI64 what line with
  | error e => exact settles_error fun extra => rfl
  | ok i => exact (h i n h3 hn).congr fun extra => rfl

theorem settles_simpleString (t : UInt8) (tail : Bytes) :
    Settles parseSimpleString (t :: tail) :=
  settles_afterLine fun _ _ h3 hn hline =>
    settles_frame (fun _ => rfl) h3 hn ⟨trivial, noCrlf_lossy hline, trivial⟩

theorem settles_errorText (t : UInt8) (tail : Bytes) : Settles parseError (t :: tail) :=
  settles_afterLine fun _ _ h3 hn hline =>
    settles_frame (fun _ => rfl) h3 hn ⟨trivial, noCrlf_lossy hline, trivial⟩

theorem parseInteger_eq :
    parseInteger = afterNumber "integer" fun i n _ => .ok (some (.integer i, n)) := rfl

theorem settles_integer (t : UInt8) (tail : Bytes) : Settles parseInteger (t :: tail) :=
  settles_afterNumber fun _ _ h3 hn =>
    settles_frame (fun _ => rfl) h3 hn ⟨trivial, trivial, trivial⟩

theorem window_append (buf extra : Bytes) (i k : ℕ) (h : i + k ≤ buf.length) :
    ((buf ++ extra).drop i).take k = (buf.drop i).take k := by
  rw [List.drop_append_of_le_length (by omega), List.take_append_of_le_length]
  rw [List.length_drop]
  omega

theorem toNat_le_isizeMax (i : Int64) : i.toInt.toNat ≤ isizeMax := by
  have h := Int64.toInt_lt i
  unfold isizeMax
  omega

/-- What `parse_bulk_string` does behind the header line. -/
def bulkBody (i : Int64) (n : ℕ) (buf : Bytes) : ParseResult :=
  if i.toInt < 0 then .ok (some (.null, n))
  else if buf.length < n + i.toInt.toNat + 2 then .ok none
  else if (buf.drop (n + i.toInt.toNat)).take 2 ≠ crlf then
    .error (.invalid (Str.lit "Bulk string missing CRLF terminator"))
  else .ok (some (.bulkString (some ((buf.drop n).take i.toInt.toNat)), n + i.toInt.toNat + 2))

theorem parseBulkString_eq : parseBulkString = afterNumber "bulk length" bulkBody := rfl

theorem settles_bulkBody {buf : Bytes} (i : Int64) {n : ℕ} (h3 : 3 ≤ n) (hn : n ≤ buf.length) :
    Settles (bulkBody i n) buf := by
  by_cases hneg : i.toInt < 0
  · exact settles_frame (fun extra => if_pos hneg) h3 hn ⟨trivial, trivial, trivial⟩
  by_cases hshort : buf.length < n + i.toInt.toNat + 2
  · exact settles_none (by rw [bulkBody, if_neg hneg, if_pos hshort])
  have hlong : ∀ extra, ¬ (buf ++ extra).length < n + i.toInt.toNat + 2 := by
    intro extra
    rw [List.length_append]
    omega
  have hend : ∀ extra, ((buf ++ extra).drop (n + i.toInt.toNat)).take 2 =
      (buf.drop (n + i.toInt.toNat)).take 2 := fun extra =>
    window_append _ extra _ _ (by omega)
  by_cases hcr : (buf.drop (n + i.toInt.toNat)).take 2 ≠ crlf
  · refine settles_error (e := .invalid (Str.lit "Bulk string missing CRLF terminator"))
      fun extra => ?_
    rw [bulkBody, if_neg hneg, if_neg (hlong extra), hend extra, if_pos hcr]
  · refine settles_frame (v := .bulkString (some ((buf.drop n).take i.toInt.toNat)))
      (n := n + i.toInt.toNat + 2) (fun extra => ?_) (by omega) (by omega) ⟨?_, trivial, trivial⟩
    · rw [bulkBody, if_neg hneg, if_neg (hlong extra), hend extra, if_neg hcr,
        window_append _ extra _ _ (by omega)]
    · show ((buf.drop n).take i.toInt.toNat).length ≤ isizeMax
      exact (List.length_take_le _ _).trans (toNat_le_isizeMax i)

theorem settles_bulkString (t : UInt8) (tail : Bytes) :
    Settles parseBulkString (t :: tail) :=
  settles_afterNumber fun i _ h3 hn => settles_bulkBody i h3 hn

theorem parseItems_settles {p : Bytes → ParseResult} {buf : Bytes}
    (h : ∀ offset, 0 < offset → Settles p (buf.drop offset)) (n offset : ℕ)
    (items : List Value) (ho : 0 < offset) (hle : offset ≤ buf.length)
    (hw : ∀ v ∈ items, v.Wire) :
    (∀ vs off, parseItems p buf n offset items = .ok (some (vs, off)) →
      offset ≤ off ∧ off ≤ buf.length ∧ vs.length = items.length + n ∧ (∀ v ∈ vs, v.Wire) ∧
        ∀ extra, parseItems p (buf ++ extra) n offset items = .ok (some (vs, off))) ∧
    (∀ e, parseItems p buf n offset items = .error e →
      ∀ extra, parseItems p (buf ++ extra) n offset items = .error e) := by
  induction n generalizing offset items with
  | zero =>
    refine ⟨fun vs off hv => ?_, fun e he => by cases he⟩
    cases hv
    exact ⟨le_rfl, hle, rfl, hw, fun extra => rfl⟩
  | succ n ih =>
    have hdrop : ∀ extra, (buf ++ extra).drop offset = buf.drop offset ++ extra := fun extra =>
      List.drop_append_of_le_length hle
    have hs := h offset ho
    cases hr : p (buf.drop offset) with
    | error e =>
      refine ⟨fun vs off hv => ?_, fun e' he extra => ?_⟩
      · simp only [parseItems, hr] at hv
        cases hv
      · simp only [parseItems, hr] at he
        cases he
        simp only [parseItems, hdrop extra, hs.fail hr extra]
        rfl
    | ok r =>
      cases r with
      | none =>
        refine ⟨fun vs off hv => ?_, fun e he => ?_⟩
        · simp only [parseItems, hr] at hv
          cases hv
        · simp only [parseItems, hr] at he
          cases he
      | some r =>
        obtain ⟨v, c⟩ := r
        obtain ⟨h3, hc, hvw, hext⟩ := hs.frame hr
        rw [List.length_drop] at hc
        have hw' : ∀ u ∈ items ++ [v], u.Wire := by
          intro u hu
          rcases List.mem_append.mp hu with hu | hu
          · exact hw u hu
          · rw [List.mem_singleton.mp hu]
            exact hvw
        have ih := ih (offset + c) (items ++ [v]) (by omega) (by omega) hw'
        have hstep : parseItems p buf (n + 1) offset items =
            parseItems p buf n (offset + c) (items ++ [v]) := by
          simp only [parseItems, hr]
          rfl
        have hstepExt : ∀ extra, parseItems p (buf ++ extra) (n + 1) offset items =
            parseItems p (buf ++ extra) n (offset + c) (items ++ [v]) := by
          intro extra
          simp only [parseItems, hdrop extra, hext extra]
          rfl
        refine ⟨fun vs off hv => ?_, fun e he extra => ?_⟩
        · rw [hstep] at hv
          obtain ⟨h1, h2, h4, h5, h6⟩ := ih.1 vs off hv
          refine ⟨by omega, h2, ?_, h5, fun extra => by rw [hstepExt extra, h6 extra]⟩
          rw [h4, List.length_append, List.length_singleton]
          omega
        · rw [hstep] at he
          rw [hstepExt extra]
          exact ih.2 e he extra

/-- What `parse_array` does behind the header line. -/
def arrayBody (p : Bytes → ParseResult) (i : Int64) (n : ℕ) (buf : Bytes) : ParseResult :=
  if i.toInt < 0 then .ok (some (.null, n))
  else if i.toInt.toNat * sizeOfValue > isizeMax then .error .capacityOverflow
  else (parseItems p buf i.toInt.toNat n []).map
    (Option.map fun r => (.array (some r.1), r.2))

theorem parseArray_eq (p : Bytes → ParseResult) :
    parseArray p = afterNumber "array length" (arrayBody p) := by
  funext buf
  unfold parseArray afterNumber afterLine
  rcases parseLine buf 1 with _ | ⟨line, n⟩
  · rfl
  dsimp only
  congr 1
  funext i
  unfold arrayBody
  split
  · rfl
  split
  · rfl
  show (parseItems p buf i.toInt.toNat n []).bind _ = _
  rcases parseItems p buf i.toInt.toNat n [] with e | _ | r <;> rfl

theorem settles_arrayBody {p : Bytes → ParseResult} {buf : Bytes}
    (h : ∀ offset, 0 < offset → Settles p (buf.drop offset)) (i : Int64) {n : ℕ} (h3 : 3 ≤ n)
    (hn : n ≤ buf.length) : Settles (arrayBody p i n) buf := by
  by_cases hneg : i.toInt < 0
  · exact settles_frame (fun extra => if_pos hneg) h3 hn ⟨trivial, trivial, trivial⟩
  by_cases hcap : i.toInt.toNat * sizeOfValue > isizeMax
  · refine settles_error (e := .capacityOverflow) fun extra => ?_
    rw [arrayBody, if_neg hneg, if_pos hcap]
  have hrun : ∀ buf, arrayBody p i n buf = (parseItems p buf i.toInt.toNat n []).map
      (Option.map fun r => (.array (some r.1), r.2)) := fun buf => by
    rw [arrayBody, if_neg hneg, if_neg hcap]
  have hs := parseItems_settles h i.toInt.toNat n [] (by omega) hn (by simp)
  rcases hr : parseItems p buf i.toInt.toNat n [] with e | _ | ⟨vs, off⟩
  · refine settles_error (e := e) fun extra => ?_
    rw [hrun, hs.2 e hr extra]
    rfl
  · exact settles_none (by rw [hrun, hr]; rfl)
  · obtain ⟨h1, h2, h4, h5, h6⟩ := hs.1 vs off hr
    refine settles_frame (v := .array (some vs)) (n := off) (fun extra => ?_) (by omega) h2
      ((Value.wire_array vs).mpr ⟨?_, h5⟩)
    · rw [hrun, h6 extra]
      rfl
    · rw [h4, List.length_nil, Nat.zero_add]
      omega

theorem settles_array {p : Bytes → ParseResult} {t : UInt8} {tail : Bytes}
    (h : ∀ offset, 0 < offset → Settles p ((t :: tail).drop offset)) :
    Settles (parseArray p) (t :: tail) := by
  rw [parseArray_eq]
  exact settles_afterNumber fun i _ h3 hn => settles_arrayBody h i h3 hn

theorem settles_step {p : Bytes → ParseResult} {buf : Bytes}
    (h : ∀ offset, 0 < offset → buf ≠ [] → Settles p (buf.drop offset)) :
    Settles (parseStep p) buf := by
  cases buf with
  | nil => exact settles_none rfl
  | cons t tail =>
    by_cases h1 : t = 0x2B
    · subst h1
      exact (settles_simpleString _ tail).congr fun extra => rfl
    by_cases h2 : t = 0x2D
    · subst h2
      exact (settles_errorText _ tail).congr fun extra => rfl
    by_cases h3 : t = 0x3A
    · subst h3
      exact (settles_integer _ tail).congr fun extra => rfl
    by_cases h4 : t = 0x24
    · subst h4
      exact (settles_bulkString _ tail).congr fun extra => rfl
    by_cases h5 : t = 0x2A
    · subst h5
      have harr := settles_array fun offset ho => h offset ho (List.cons_ne_nil _ tail)
      exact harr.congr fun extra => rfl
    refine settles_error (e := .invalid
      (Str.lit "Unknown type: " ++ Str.fromUtf8Lossy (Decimal.decimal t.toNat))) fun extra => ?_
    simp only [parseStep, List.cons_append]

theorem settles_parseValue (buf : Bytes) : Settles parseValue buf := by
  have key : ∀ m (buf : Bytes), buf.length = m → Settles parseValue buf := by
    intro m
    refine Nat.strongRecOn m (fun m ih => ?_)
    intro buf hm
    have hs : Settles (parseStep parseValue) buf := by
      refine settles_step fun offset ho hne => ih _ ?_ _ rfl
      have hpos := List.length_pos_iff.mpr hne
      rw [List.length_drop]
      omega
    exact hs.congr fun extra => parseValue_eq _
  exact key buf.length buf rfl

/-! ### The codec -/

theorem decode_eq (src : Bytes) :
    decode src = match parseValue src with
      | .ok (some (value, consumed)) => (.ok (some value), src.drop consumed)
      | .ok none => (.ok none, src)
      | .error e => (.error e, src) := by
  unfold decode
  split
  · rename_i h
    subst h
    rfl
  · rfl

theorem decode_nil : (decode []).1 = .ok none := rfl

theorem decode_lawful : Incremental.Lawful 3 decode where
  frame {buf v} hd := by
    rw [decode_eq] at hd
    cases hp : parseValue buf with
    | error e => rw [hp] at hd; cases hd
    | ok r =>
      cases r with
      | none => rw [hp] at hd; cases hd
      | some r =>
        obtain ⟨u, n⟩ := r
        rw [hp] at hd
        cases hd
        obtain ⟨h3, hn, -, hext⟩ := (settles_parseValue buf).frame hp
        refine ⟨n, h3, hn, by rw [decode_eq, hp], fun extra => ?_⟩
        rw [decode_eq, hext extra]
        simp only [List.drop_append_of_le_length hn]
  fail {buf e} hd := by
    rw [decode_eq] at hd
    cases hp : parseValue buf with
    | error e' =>
      rw [hp] at hd
      cases hd
      refine ⟨by rw [decode_eq, hp], fun extra => ?_⟩
      rw [decode_eq, (settles_parseValue buf).fail hp extra]
    | ok r => rw [hp] at hd; cases r <;> cases hd
  more {buf} hd := by
    rw [decode_eq] at hd ⊢
    cases hp : parseValue buf with
    | error e => rfl
    | ok r =>
      cases r with
      | none => rfl
      | some r => rw [hp] at hd; cases hd

theorem wire_of_decode {buf rest : Bytes} {v : Value} (h : decode buf = (.ok (some v), rest)) :
    v.Wire := by
  rw [decode_eq] at h
  cases hp : parseValue buf with
  | error e => rw [hp] at h; cases h
  | ok r =>
    cases r with
    | none => rw [hp] at h; cases h
    | some r =>
      obtain ⟨u, n⟩ := r
      rw [hp] at h
      cases h
      exact ((settles_parseValue buf).frame hp).2.2.1

end FireRedis
