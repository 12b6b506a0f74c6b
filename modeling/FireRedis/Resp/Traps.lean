import FireRedis.Resp.Checked

/-!
# Where the decoder panics

The frames that the decoder accepts, in whatever spelling, and the buffers that
make it panic: at some depth, after whole elements, stands the header of an
array too large to allocate, or that of a bulk string whose end overflows `usize`.
-/

namespace FireRedis
open Checked (Result)

/-- The line, without CR LF, is the text of the number. -/
def SpellsI64 (line : Bytes) (n : Int64) : Prop :=
  ¬ crlf <:+: line ∧ ∃ s, Str.fromUtf8 line = some s ∧ Decimal.parseI64 s.bytes = some n

/-- The bytes of a frame that the decoder accepts. -/
inductive WireFrame : Bytes → Prop
  | text (t : UInt8) (line : Bytes) (ht : t = 0x2B ∨ t = 0x2D) (hline : ¬ crlf <:+: line) :
      WireFrame (t :: (line ++ crlf))
  | integer (line : Bytes) (n : Int64) (hn : SpellsI64 line n) : WireFrame (0x3A :: (line ++ crlf))
  | null (t : UInt8) (line : Bytes) (n : Int64) (ht : t = 0x24 ∨ t = 0x2A) (hn : SpellsI64 line n)
      (hneg : n.toInt < 0) : WireFrame (t :: (line ++ crlf))
  | bulk (line data : Bytes) (n : Int64) (hn : SpellsI64 line n) (hlen : n.toInt = data.length) :
      WireFrame (0x24 :: (line ++ crlf ++ (data ++ crlf)))
  | array (line : Bytes) (items : List Bytes) (n : Int64) (hn : SpellsI64 line n)
      (hlen : n.toInt = items.length) (hcap : items.length * sizeOfValue ≤ isizeMax)
      (hitems : ∀ item ∈ items, WireFrame item) :
      WireFrame (0x2A :: (line ++ crlf ++ items.flatten))

/-- The buffers on which the decoder panics. -/
inductive WireTraps : Bytes → Prop
  | bulk (line rest : Bytes) (n : Int64) (hn : SpellsI64 line n) (hpos : 0 ≤ n.toInt)
      (hover : 2 ^ 64 ≤ line.length + 3 + n.toInt.toNat + 2) :
      WireTraps (0x24 :: (line ++ crlf ++ rest))
  | capacity (line rest : Bytes) (n : Int64) (hn : SpellsI64 line n) (hpos : 0 ≤ n.toInt)
      (hcap : isizeMax < n.toInt.toNat * sizeOfValue) : WireTraps (0x2A :: (line ++ crlf ++ rest))
  | item (line rest : Bytes) (items : List Bytes) (n : Int64) (hn : SpellsI64 line n)
      (hcap : n.toInt.toNat * sizeOfValue ≤ isizeMax) (hlen : items.length < n.toInt.toNat)
      (hitems : ∀ item ∈ items, WireFrame item) (hrest : WireTraps rest) :
      WireTraps (0x2A :: (line ++ crlf ++ (items.flatten ++ rest)))

/-! ### Lines -/

theorem add_ok {a b : ℕ} (h : a + b < 2 ^ 64) : Checked.add a b = .ok (a + b) := if_pos h

theorem slice_ok {buf : Bytes} {i j : ℕ} (h : i ≤ j) (h' : j ≤ buf.length) :
    Checked.slice buf i j = .ok ((buf.drop i).take (j - i)) := if_pos ⟨h, h'⟩

theorem sliceFrom_ok {buf : Bytes} {i : ℕ} (h : i ≤ buf.length) :
    Checked.sliceFrom buf i = .ok (buf.drop i) := if_pos h

theorem checked_parseLine {t : UInt8} {tail : Bytes} (hlen : (t :: tail).length ≤ isizeMax) :
    Checked.parseLine (t :: tail) 1 = .ok (parseLine (t :: tail) 1) := by
  have hstart : ¬ 1 > (t :: tail).length := by
    rw [List.length_cons]
    omega
  rw [Checked.parseLine, parseLine, if_neg hstart, if_neg hstart, sliceFrom_ok (by omega)]
  rw [show (t :: tail).drop 1 = tail from rfl]
  dsimp only [bind, Except.bind]
  cases hrel : findCrlf tail with
  | none => rfl
  | some rel =>
    obtain ⟨line, rest, htail, rfl, -⟩ := findCrlf_eq_some hrel
    have hend := line_length_le (t := t) htail
    unfold isizeMax at hlen
    dsimp only
    rw [add_ok (by omega)]
    show (Checked.add (1 + line.length) 2 >>= fun consumed => _) = _
    rw [add_ok (by omega)]
    show (Checked.slice (t :: tail) 1 (1 + line.length) >>= fun text => _) = _
    rw [slice_ok (by omega) (by omega), Nat.add_sub_cancel_left]
    rfl

theorem line_cases (t : UInt8) (tail : Bytes) : parseLine (t :: tail) 1 = none ∨
    ∃ line rest, tail = line ++ crlf ++ rest ∧ ¬ crlf <:+: line ∧
      parseLine (t :: tail) 1 = some (line, line.length + 3) := by
  cases h : parseLine (t :: tail) 1 with
  | none => exact Or.inl rfl
  | some r =>
    obtain ⟨line, n⟩ := r
    obtain ⟨rest, htail, rfl, hline⟩ := parseLine_eq_some h
    exact Or.inr ⟨line, rest, htail, hline, rfl⟩

theorem checked_line {t : UInt8} {line rest : Bytes} (hline : ¬ crlf <:+: line)
    (hlen : (t :: (line ++ crlf ++ rest)).length ≤ isizeMax) :
    Checked.parseLine (t :: (line ++ crlf ++ rest)) 1 = .ok (some (line, line.length + 3)) := by
  rw [checked_parseLine hlen, parseLine_line t line rest hline]

theorem checked_number (what : String) {line : Bytes} {n : Int64} (h : SpellsI64 line n) :
    Checked.parseLineI64 what line = .ok n := by
  obtain ⟨-, s, hs, hn⟩ := h
  rw [Checked.parseLineI64, parseLineI64, hs]
  simp only [hn]
  rfl

theorem number_cases (what : String) {line : Bytes} (hline : ¬ crlf <:+: line) :
    (∃ n, SpellsI64 line n) ∨
      ∃ msg, Checked.parseLineI64 what line = .error (.invalid msg) := by
  cases hs : Str.fromUtf8 line with
  | none =>
    refine Or.inr ⟨Str.lit "Invalid " ++ Str.lit what ++ Str.lit " bytes", ?_⟩
    rw [Checked.parseLineI64, parseLineI64, hs]
    rfl
  | some s =>
    cases hn : Decimal.parseI64 s.bytes with
    | none =>
      refine Or.inr ⟨Str.lit "Invalid " ++ Str.lit what ++ Str.lit ": " ++ s, ?_⟩
      rw [Checked.parseLineI64, parseLineI64, hs]
      simp only [hn]
      rfl
    | some n => exact Or.inl ⟨n, hline, s, hs, hn⟩

/-- The parsers that go on with the number on their first line. -/
def Checked.afterNumber (what : String) (body : Int64 → ℕ → Result) (buf : Bytes) : Result := do
  match ← Checked.parseLine buf 1 with
  | none => return none
  | some (line, n) => body (← Checked.parseLineI64 what line) n

theorem checked_afterNumber (what : String) (body : Int64 → ℕ → Result) {t : UInt8}
    {line rest : Bytes} {n : Int64} (hn : SpellsI64 line n)
    (hlen : (t :: (line ++ crlf ++ rest)).length ≤ isizeMax) :
    Checked.afterNumber what body (t :: (line ++ crlf ++ rest)) = body n (line.length + 3) := by
  rw [Checked.afterNumber, checked_line hn.1 hlen]
  show (Checked.parseLineI64 what line >>= fun num => _) = _
  rw [checked_number what hn]
  rfl

/-- The line is not there yet, or holds no number, or the parser goes on. -/
theorem afterNumber_cases (what : String) (body : Int64 → ℕ → Result) {t : UInt8} {tail : Bytes}
    (hlen : (t :: tail).length ≤ isizeMax) :
    Checked.afterNumber what body (t :: tail) = .ok none ∨
      (∃ msg, Checked.afterNumber what body (t :: tail) = .error (.invalid msg)) ∨
      ∃ line rest n, tail = line ++ crlf ++ rest ∧ SpellsI64 line n := by
  rcases line_cases t tail with hnone | ⟨line, rest, rfl, hline, hsome⟩
  · refine Or.inl ?_
    rw [Checked.afterNumber, checked_parseLine hlen, hnone]
    rfl
  rcases number_cases what hline with ⟨n, hn⟩ | ⟨msg, hmsg⟩
  · exact Or.inr (Or.inr ⟨line, rest, n, rfl, hn⟩)
  · refine Or.inr (Or.inl ⟨msg, ?_⟩)
    rw [Checked.afterNumber, checked_parseLine hlen, hsome]
    show (Checked.parseLineI64 what line >>= fun num => _) = _
    rw [hmsg]
    rfl

/-! ### Bulk strings -/

theorem drop_header (t : UInt8) (line rest : Bytes) (k : ℕ) :
    (t :: (line ++ crlf ++ rest)).drop (line.length + 3 + k) = rest.drop k := by
  have hheader : (t :: (line ++ crlf)).length = line.length + 3 := by
    rw [List.length_cons, List.length_append]
    rfl
  have hbuf : t :: (line ++ crlf ++ rest) = t :: (line ++ crlf) ++ rest := rfl
  rw [← hheader, hbuf, List.drop_length_add_append]

theorem length_header (t : UInt8) (line rest : Bytes) :
    (t :: (line ++ crlf ++ rest)).length = line.length + 3 + rest.length := by
  have hcrlf : crlf.length = 2 := rfl
  rw [List.length_cons, List.length_append, List.length_append, hcrlf]
  omega

theorem checked_bulkString {line rest : Bytes} {n : Int64} (hn : SpellsI64 line n)
    (hlen : (0x24 :: (line ++ crlf ++ rest)).length ≤ isizeMax) :
    Checked.parseBulkString (0x24 :: (line ++ crlf ++ rest)) =
      if n.toInt < 0 then .ok (some (.null, line.length + 3))
      else if 2 ^ 64 ≤ line.length + 3 + n.toInt.toNat + 2 then Checked.trap .arithmeticOverflow
      else if rest.length < n.toInt.toNat + 2 then .ok none
      else if (rest.drop n.toInt.toNat).take 2 ≠ crlf then
        .error (.invalid (Str.lit "Bulk string missing CRLF terminator"))
      else .ok (some (.bulkString (some (rest.take n.toInt.toNat)),
        line.length + 3 + n.toInt.toNat + 2)) := by
  refine (checked_afterNumber "bulk length" _ hn hlen).trans ?_
  show (if n.toInt < 0 then _ else _) = _
  by_cases hneg : n.toInt < 0
  · rw [if_pos hneg, if_pos hneg]
    rfl
  have hmax := toNat_le_isizeMax n
  have hbuf := length_header 0x24 line rest
  unfold isizeMax at hlen hmax
  generalize n.toInt.toNat = len at hmax ⊢
  rw [if_neg hneg, if_neg hneg]
  show (Checked.add (line.length + 3) len >>= fun stop => _) = _
  rw [add_ok (by omega)]
  show (Checked.add (line.length + 3 + len) 2 >>= fun stop => _) = _
  by_cases hover : 2 ^ 64 ≤ line.length + 3 + len + 2
  · rw [Checked.add, if_neg (by omega), if_pos hover]
    rfl
  rw [if_neg hover, add_ok (by omega)]
  show (if _ < _ then _ else _) = _
  by_cases hshort : rest.length < len + 2
  · rw [if_pos (by omega), if_pos hshort]
    rfl
  rw [if_neg (by omega), if_neg hshort, slice_ok (by omega) (by omega), Nat.add_sub_cancel_left]
  show (Checked.slice _ (line.length + 3 + len) (line.length + 3 + len + 2) >>= fun term => _) = _
  rw [slice_ok (by omega) (by omega), Nat.add_sub_cancel_left, drop_header]
  have hdrop := drop_header 0x24 line rest 0
  rw [Nat.add_zero, List.drop_zero] at hdrop
  rw [hdrop]
  rfl

/-! ### A frame that is found, and a panic, have their reasons -/

structure Sound (parse : Bytes → Result) (buf : Bytes) : Prop where
  frame : ∀ {v n}, parse buf = .ok (some (v, n)) →
    ∃ enc rest, buf = enc ++ rest ∧ WireFrame enc ∧ n = enc.length
  traps : ∀ {t}, parse buf = Checked.trap t → WireTraps buf

section Sound

variable {parse : Bytes → Result} {buf : Bytes}

theorem sound_none (h : parse buf = .ok none) : Sound parse buf where
  frame hv := by cases h.symm.trans hv
  traps ht := by cases h.symm.trans ht

theorem sound_invalid {msg : Str} (h : parse buf = .error (.invalid msg)) : Sound parse buf where
  frame hv := by cases h.symm.trans hv
  traps ht := by cases h.symm.trans ht

theorem sound_frame {enc rest : Bytes} (henc : WireFrame enc)
    (h : ∃ v, parse (enc ++ rest) = .ok (some (v, enc.length))) : Sound parse (enc ++ rest) where
  frame hv := by
    obtain ⟨v, hrun⟩ := h
    cases hrun.symm.trans hv
    exact ⟨enc, rest, rfl, henc, rfl⟩
  traps ht := by
    obtain ⟨v, hrun⟩ := h
    cases hrun.symm.trans ht

theorem sound_trap {t : Trap} (hbuf : WireTraps buf) (h : parse buf = Checked.trap t) :
    Sound parse buf where
  frame hv := by cases h.symm.trans hv
  traps _ := hbuf

theorem header_frame (t : UInt8) (line rest : Bytes) :
    t :: (line ++ crlf ++ rest) = t :: (line ++ crlf) ++ rest := rfl

theorem header_length (t : UInt8) (line : Bytes) :
    (t :: (line ++ crlf)).length = line.length + 3 := by
  rw [List.length_cons, List.length_append]
  rfl

theorem sound_simpleString {tail : Bytes} (hlen : (0x2B :: tail).length ≤ isizeMax) :
    Sound Checked.parseSimpleString (0x2B :: tail) := by
  rcases line_cases 0x2B tail with hnone | ⟨line, rest, rfl, hline, hsome⟩
  · apply sound_none
    rw [Checked.parseSimpleString, checked_parseLine hlen, hnone]
    rfl
  · refine sound_frame (.text 0x2B line (Or.inl rfl) hline)
      ⟨.simpleString (Str.fromUtf8Lossy line), ?_⟩
    rw [← header_frame, header_length, Checked.parseSimpleString, checked_parseLine hlen, hsome]
    rfl

theorem sound_error {tail : Bytes} (hlen : (0x2D :: tail).length ≤ isizeMax) :
    Sound Checked.parseError (0x2D :: tail) := by
  rcases line_cases 0x2D tail with hnone | ⟨line, rest, rfl, hline, hsome⟩
  · apply sound_none
    rw [Checked.parseError, checked_parseLine hlen, hnone]
    rfl
  · refine sound_frame (.text 0x2D line (Or.inr rfl) hline) ⟨.error (Str.fromUtf8Lossy line), ?_⟩
    rw [← header_frame, header_length, Checked.parseError, checked_parseLine hlen, hsome]
    rfl

theorem checked_integer {line rest : Bytes} {n : Int64} (hn : SpellsI64 line n)
    (hlen : (0x3A :: (line ++ crlf ++ rest)).length ≤ isizeMax) :
    Checked.parseInteger (0x3A :: (line ++ crlf ++ rest)) =
      .ok (some (.integer n, line.length + 3)) :=
  checked_afterNumber "integer" (fun num offset => return some (.integer num, offset)) hn hlen

theorem sound_integer {tail : Bytes} (hlen : (0x3A :: tail).length ≤ isizeMax) :
    Sound Checked.parseInteger (0x3A :: tail) := by
  rcases afterNumber_cases "integer" _ hlen with hnone | ⟨msg, hmsg⟩ | ⟨line, rest, n, rfl, hn⟩
  · exact sound_none hnone
  · exact sound_invalid hmsg
  · have hrun := checked_integer hn hlen
    rw [← header_length 0x3A line] at hrun
    exact sound_frame (.integer line n hn) ⟨.integer n, hrun⟩

theorem bulk_split {rest : Bytes} {n : ℕ} (h : (rest.drop n).take 2 = crlf) :
    ∃ rest', rest = rest.take n ++ crlf ++ rest' := by
  refine ⟨(rest.drop n).drop 2, ?_⟩
  rw [← h, List.append_assoc, List.take_append_drop, List.take_append_drop]

theorem sound_bulkString {tail : Bytes} (hlen : (0x24 :: tail).length ≤ isizeMax) :
    Sound Checked.parseBulkString (0x24 :: tail) := by
  rcases afterNumber_cases "bulk length" _ hlen with
    hnone | ⟨msg, hmsg⟩ | ⟨line, rest, n, rfl, hn⟩
  · exact sound_none hnone
  · exact sound_invalid hmsg
  · have hrun := checked_bulkString hn hlen
    by_cases hneg : n.toInt < 0
    · rw [if_pos hneg, ← header_length 0x24 line] at hrun
      exact sound_frame (.null 0x24 line n (Or.inl rfl) hn hneg) ⟨.null, hrun⟩
    rw [if_neg hneg] at hrun
    by_cases hover : 2 ^ 64 ≤ line.length + 3 + n.toInt.toNat + 2
    · rw [if_pos hover] at hrun
      exact sound_trap (.bulk line rest n hn (Int.not_lt.mp hneg) hover) hrun
    rw [if_neg hover] at hrun
    by_cases hshort : rest.length < n.toInt.toNat + 2
    · rw [if_pos hshort] at hrun
      exact sound_none hrun
    rw [if_neg hshort] at hrun
    by_cases hend : (rest.drop n.toInt.toNat).take 2 ≠ crlf
    · rw [if_pos hend] at hrun
      exact sound_invalid hrun
    · rw [if_neg hend] at hrun
      obtain ⟨rest', hrest⟩ := bulk_split (not_not.mp hend)
      have hdata : (rest.take n.toInt.toNat).length = n.toInt.toNat :=
        List.length_take_of_le (by omega)
      have hframe : WireFrame (0x24 :: (line ++ crlf ++ (rest.take n.toInt.toNat ++ crlf))) :=
        .bulk line _ n hn (by omega)
      have hbuf : 0x24 :: (line ++ crlf ++ rest) =
          0x24 :: (line ++ crlf ++ (rest.take n.toInt.toNat ++ crlf)) ++ rest' := by
        rw [List.cons_append, List.append_assoc _ _ rest', ← hrest]
      have hlength : (0x24 :: (line ++ crlf ++ (rest.take n.toInt.toNat ++ crlf))).length =
          line.length + 3 + n.toInt.toNat + 2 := by
        rw [length_header, List.length_append, hdata]
        rfl
      rw [hbuf] at hrun ⊢
      rw [← hlength] at hrun
      exact sound_frame hframe ⟨_, hrun⟩

/-- The element loop: whole frames, or whole frames and a buffer that traps. -/
theorem items_sound (h : ∀ offset, Sound parse (buf.drop offset)) (n offset : ℕ)
    (items : List Value) (hoffset : offset ≤ buf.length) (hlen : buf.length ≤ isizeMax) :
    (∀ {vs stop}, Checked.parseItems parse buf n offset items = .ok (some (vs, stop)) →
      ∃ (encs : List Bytes) (rest : Bytes), encs.length = n ∧ (∀ e ∈ encs, WireFrame e) ∧
        buf.drop offset = encs.flatten ++ rest ∧ stop = offset + encs.flatten.length) ∧
    (∀ {t}, Checked.parseItems parse buf n offset items = Checked.trap t →
      ∃ (encs : List Bytes) (rest : Bytes), encs.length < n ∧ (∀ e ∈ encs, WireFrame e) ∧
        buf.drop offset = encs.flatten ++ rest ∧ WireTraps rest) := by
  induction n generalizing offset items with
  | zero =>
    refine ⟨fun hv => ?_, fun ht => by cases ht⟩
    cases hv
    exact ⟨[], buf.drop offset, rfl, nofun, rfl, rfl⟩
  | succ n ih =>
    rw [Checked.parseItems, sliceFrom_ok hoffset]
    dsimp only [bind, Except.bind]
    have hsound := h offset
    rcases hrun : parse (buf.drop offset) with (msg | t) | _ | ⟨value, consumed⟩
    · exact ⟨fun hv => (by cases hv), fun ht => by cases ht⟩
    · refine ⟨fun hv => (by cases hv), fun _ => ?_⟩
      exact ⟨[], buf.drop offset, Nat.succ_pos n, nofun, rfl, hsound.traps hrun⟩
    · exact ⟨fun hv => (by cases hv), fun ht => by cases ht⟩
    · obtain ⟨e, rest, hdrop, he, rfl⟩ := hsound.frame hrun
      have hnext : buf.drop (offset + e.length) = rest := by
        rw [← List.drop_drop, hdrop, List.drop_left]
      have hfit : offset + e.length ≤ buf.length := by
        have hlength := congrArg List.length hdrop
        rw [List.length_drop, List.length_append] at hlength
        omega
      have hadd : Checked.add offset e.length = .ok (offset + e.length) := by
        unfold isizeMax at hlen
        exact add_ok (by omega)
      obtain ⟨hframes, htraps⟩ := ih (offset + e.length) (items ++ [value]) hfit
      dsimp only [bind, Except.bind]
      rw [hadd]
      refine ⟨fun hv => ?_, fun ht => ?_⟩
      · obtain ⟨encs, last, hcount, hencs, hsplit, hstop⟩ := hframes hv
        refine ⟨e :: encs, last, congrArg Nat.succ hcount, List.forall_mem_cons.mpr ⟨he, hencs⟩,
          ?_, ?_⟩
        · rw [hdrop, List.flatten_cons, List.append_assoc, ← hsplit, hnext]
        · rw [hstop, List.flatten_cons, List.length_append, Nat.add_assoc]
      · obtain ⟨encs, last, hcount, hencs, hsplit, hlast⟩ := htraps ht
        refine ⟨e :: encs, last, Nat.succ_lt_succ hcount, List.forall_mem_cons.mpr ⟨he, hencs⟩, ?_,
          hlast⟩
        rw [hdrop, List.flatten_cons, List.append_assoc, ← hsplit, hnext]

theorem checked_array (parse : Bytes → Result) {line rest : Bytes} {n : Int64}
    (hn : SpellsI64 line n) (hlen : (0x2A :: (line ++ crlf ++ rest)).length ≤ isizeMax) :
    Checked.parseArray parse (0x2A :: (line ++ crlf ++ rest)) =
      if n.toInt < 0 then .ok (some (.null, line.length + 3))
      else if n.toInt.toNat * sizeOfValue > isizeMax then Checked.trap .capacityOverflow
      else
        Checked.parseItems parse (0x2A :: (line ++ crlf ++ rest)) n.toInt.toNat
          (line.length + 3) [] >>= fun r =>
            match r with
            | some (items, offset) => return some (.array (some items), offset)
            | none => return none := by
  refine (checked_afterNumber "array length" _ hn hlen).trans ?_
  show (if n.toInt < 0 then _
    else Checked.withCapacity n.toInt.toNat sizeOfValue >>= fun _ => _) = _
  by_cases hneg : n.toInt < 0
  · rw [if_pos hneg, if_pos hneg]
    rfl
  rw [if_neg hneg, if_neg hneg, Checked.withCapacity]
  by_cases hcap : n.toInt.toNat * sizeOfValue > isizeMax
  · rw [if_pos hcap, if_pos hcap]
    rfl
  · rw [if_neg hcap, if_neg hcap]
    rfl

theorem sound_array {tail : Bytes} (hlen : (0x2A :: tail).length ≤ isizeMax)
    (h : ∀ offset, Sound parse ((0x2A :: tail).drop offset)) :
    Sound (Checked.parseArray parse) (0x2A :: tail) := by
  rcases afterNumber_cases "array length" _ hlen with
    hnone | ⟨msg, hmsg⟩ | ⟨line, rest, n, rfl, hn⟩
  · exact sound_none hnone
  · exact sound_invalid hmsg
  · have hrun := checked_array parse hn hlen
    by_cases hneg : n.toInt < 0
    · rw [if_pos hneg, ← header_length 0x2A line] at hrun
      exact sound_frame (.null 0x2A line n (Or.inr rfl) hn hneg) ⟨.null, hrun⟩
    rw [if_neg hneg] at hrun
    by_cases hcap : n.toInt.toNat * sizeOfValue > isizeMax
    · rw [if_pos hcap] at hrun
      exact sound_trap (.capacity line rest n hn (Int.not_lt.mp hneg) hcap) hrun
    rw [if_neg hcap] at hrun
    have hoffset : line.length + 3 ≤ (0x2A :: (line ++ crlf ++ rest)).length := by
      rw [length_header]
      omega
    obtain ⟨hframes, htraps⟩ := items_sound h n.toInt.toNat (line.length + 3) [] hoffset hlen
    have hdrop := drop_header 0x2A line rest 0
    rw [Nat.add_zero, List.drop_zero] at hdrop
    rw [hdrop] at hframes htraps
    rcases hitems : Checked.parseItems parse (0x2A :: (line ++ crlf ++ rest)) n.toInt.toNat
      (line.length + 3) [] with (msg | t) | _ | ⟨vs, stop⟩
    · exact sound_invalid (by rw [hrun, hitems]; rfl)
    · obtain ⟨encs, last, hcount, hencs, rfl, hlast⟩ := htraps hitems
      exact sound_trap (.item line last encs n hn (Nat.not_lt.mp hcap) hcount hencs hlast)
        (by rw [hrun, hitems]; rfl)
    · exact sound_none (by rw [hrun, hitems]; rfl)
    · obtain ⟨encs, last, hcount, hencs, rfl, rfl⟩ := hframes hitems
      have hframe : WireFrame (0x2A :: (line ++ crlf ++ encs.flatten)) :=
        .array line encs n hn (by omega) (by rw [hcount]; exact Nat.not_lt.mp hcap) hencs
      have hbuf : 0x2A :: (line ++ crlf ++ (encs.flatten ++ last)) =
          0x2A :: (line ++ crlf ++ encs.flatten) ++ last := by
        rw [List.cons_append, List.append_assoc _ _ last]
      rw [hbuf] at hrun hitems ⊢
      refine sound_frame hframe ⟨.array (some vs), ?_⟩
      rw [hrun, hitems, length_header]
      rfl

theorem sound_step (hlen : buf.length ≤ isizeMax)
    (h : ∀ offset, Sound parse (buf.drop offset)) : Sound (Checked.parseStep parse) buf := by
  cases buf with
  | nil => exact sound_none rfl
  | cons t tail =>
    by_cases h1 : t = 0x2B
    · subst h1
      exact ⟨(sound_simpleString hlen).frame, (sound_simpleString hlen).traps⟩
    by_cases h2 : t = 0x2D
    · subst h2
      exact ⟨(sound_error hlen).frame, (sound_error hlen).traps⟩
    by_cases h3 : t = 0x3A
    · subst h3
      exact ⟨(sound_integer hlen).frame, (sound_integer hlen).traps⟩
    by_cases h4 : t = 0x24
    · subst h4
      exact ⟨(sound_bulkString hlen).frame, (sound_bulkString hlen).traps⟩
    by_cases h5 : t = 0x2A
    · subst h5
      exact ⟨(sound_array hlen h).frame, (sound_array hlen h).traps⟩
    · have hrun : Checked.parseStep parse (t :: tail) = .error (.invalid
          (Str.lit "Unknown type: " ++ Str.fromUtf8Lossy (Decimal.decimal t.toNat))) := by
        simp only [Checked.parseStep]
      exact sound_invalid hrun

theorem sound_parseValueFuel (fuel : ℕ) (hlen : buf.length ≤ isizeMax) :
    Sound (Checked.parseValueFuel fuel) buf := by
  induction fuel generalizing buf with
  | zero => exact sound_none rfl
  | succ fuel ih =>
    have hdrop : ∀ offset, Sound (Checked.parseValueFuel fuel) (buf.drop offset) := by
      intro offset
      apply ih
      rw [List.length_drop]
      omega
    exact ⟨(sound_step hlen hdrop).frame, (sound_step hlen hdrop).traps⟩

end Sound

/-! ### Every frame is found, and every trap is met -/

section Complete

variable {parse : Bytes → Result}

/-- The element loop over whole frames, with `m` more elements to come. -/
theorem items_run {encs : List Bytes} (front rest : Bytes) (m : ℕ) (items : List Value)
    (h : ∀ e ∈ encs, ∀ rest, (e ++ rest).length ≤ isizeMax →
      ∃ v, parse (e ++ rest) = .ok (some (v, e.length)))
    (hlen : (front ++ (encs.flatten ++ rest)).length ≤ isizeMax) :
    ∃ vs, Checked.parseItems parse (front ++ (encs.flatten ++ rest)) (encs.length + m) front.length
        items =
      Checked.parseItems parse (front ++ (encs.flatten ++ rest)) m
        (front.length + encs.flatten.length) vs := by
  induction encs generalizing front items with
  | nil => exact ⟨items, by rw [List.length_nil, Nat.zero_add]; rfl⟩
  | cons e encs ih =>
    have hbuf : front ++ ((e :: encs).flatten ++ rest) =
        front ++ e ++ (encs.flatten ++ rest) := by
      rw [List.flatten_cons, List.append_assoc, List.append_assoc]
    rw [hbuf] at hlen ⊢
    have htail : (e ++ (encs.flatten ++ rest)).length ≤ isizeMax := by
      rw [List.append_assoc, List.length_append] at hlen
      omega
    obtain ⟨v, hv⟩ := h e (List.mem_cons_self ..) _ htail
    obtain ⟨vs, hvs⟩ := ih (front ++ e) (items ++ [v])
      (fun e' he' => h e' (List.mem_cons_of_mem _ he')) hlen
    refine ⟨vs, ?_⟩
    have hcount : (e :: encs).length + m = encs.length + m + 1 := by
      rw [List.length_cons]
      omega
    have hslice : Checked.sliceFrom (front ++ e ++ (encs.flatten ++ rest)) front.length =
        .ok (e ++ (encs.flatten ++ rest)) := by
      rw [sliceFrom_ok (by simp only [List.length_append]; omega), List.append_assoc,
        List.drop_left]
    have hadd : Checked.add front.length e.length = .ok (front ++ e).length := by
      rw [List.length_append]
      unfold isizeMax at hlen
      simp only [List.length_append] at hlen
      exact add_ok (by omega)
    rw [hcount, Checked.parseItems, hslice]
    show (parse (e ++ (encs.flatten ++ rest)) >>= fun r => _) = _
    rw [hv]
    show (Checked.add front.length e.length >>= fun offset => _) = _
    rw [hadd]
    refine hvs.trans ?_
    rw [List.flatten_cons, List.length_append, List.length_append, Nat.add_assoc]

theorem frame_pos {enc : Bytes} (h : WireFrame enc) : 0 < enc.length := by
  cases h <;> exact Nat.succ_pos _

theorem item_length_le {item : Bytes} {items : List Bytes} (h : item ∈ items) :
    item.length ≤ items.flatten.length := by
  rw [List.length_flatten]
  exact List.le_sum_of_mem (List.mem_map_of_mem h)

theorem bulk_frame {line data : Bytes} {n : Int64} (hn : SpellsI64 line n)
    (hcount : n.toInt = data.length) (rest : Bytes)
    (hlen : (0x24 :: (line ++ crlf ++ (data ++ crlf)) ++ rest).length ≤ isizeMax) :
    Checked.parseBulkString (0x24 :: (line ++ crlf ++ (data ++ crlf)) ++ rest) =
      .ok (some (.bulkString (some data),
        (0x24 :: (line ++ crlf ++ (data ++ crlf))).length)) := by
  have hbuf : 0x24 :: (line ++ crlf ++ (data ++ crlf)) ++ rest =
      0x24 :: (line ++ crlf ++ (data ++ (crlf ++ rest))) := by
    simp only [List.cons_append, List.append_assoc]
  have hn' : n.toInt.toNat = data.length := by omega
  have hcrlf : crlf.length = 2 := rfl
  rw [hbuf] at hlen ⊢
  have hbound := hlen
  rw [length_header] at hbound
  simp only [List.length_append, hcrlf, isizeMax] at hbound
  rw [checked_bulkString hn hlen, if_neg (by omega), hn', if_neg (by omega), List.drop_left,
    List.take_left, if_neg, if_neg, length_header, List.length_append]
  · rfl
  · rw [← hcrlf, List.take_left]
    exact fun hne => hne rfl
  · simp only [List.length_append, hcrlf]
    omega

theorem array_frame {line : Bytes} {items : List Bytes} {n : Int64} (hn : SpellsI64 line n)
    (hcount : n.toInt = items.length) (hcap : items.length * sizeOfValue ≤ isizeMax)
    (h : ∀ e ∈ items, ∀ rest, (e ++ rest).length ≤ isizeMax →
      ∃ v, parse (e ++ rest) = .ok (some (v, e.length))) (rest : Bytes)
    (hlen : (0x2A :: (line ++ crlf ++ items.flatten) ++ rest).length ≤ isizeMax) :
    ∃ vs, Checked.parseArray parse (0x2A :: (line ++ crlf ++ items.flatten) ++ rest) =
      .ok (some (.array (some vs), (0x2A :: (line ++ crlf ++ items.flatten)).length)) := by
  have hbuf : 0x2A :: (line ++ crlf ++ items.flatten) ++ rest =
      0x2A :: (line ++ crlf ++ (items.flatten ++ rest)) := by
    simp only [List.cons_append, List.append_assoc]
  have hn' : n.toInt.toNat = items.length := by omega
  rw [length_header]
  rw [hbuf] at hlen ⊢
  obtain ⟨vs, hrun⟩ := items_run (0x2A :: (line ++ crlf)) rest 0 [] h hlen
  rw [header_length, Nat.add_zero] at hrun
  refine ⟨vs, ?_⟩
  rw [checked_array _ hn hlen, if_neg (by omega), hn', if_neg (Nat.not_lt.mpr hcap),
    header_frame, hrun]
  rfl

theorem parse_frame {enc : Bytes} (h : WireFrame enc) (fuel : ℕ) (rest : Bytes)
    (hfuel : enc.length ≤ fuel + 1) (hlen : (enc ++ rest).length ≤ isizeMax) :
    ∃ v, Checked.parseValueFuel (fuel + 1) (enc ++ rest) = .ok (some (v, enc.length)) := by
  induction h generalizing fuel rest with
  | text t line ht hline =>
    rw [← header_frame] at hlen ⊢
    rw [header_length]
    rcases ht with rfl | rfl
    · refine ⟨.simpleString (Str.fromUtf8Lossy line), ?_⟩
      show Checked.parseSimpleString _ = _
      rw [Checked.parseSimpleString, checked_line hline hlen]
      rfl
    · refine ⟨.error (Str.fromUtf8Lossy line), ?_⟩
      show Checked.parseError _ = _
      rw [Checked.parseError, checked_line hline hlen]
      rfl
  | integer line n hn =>
    rw [← header_frame] at hlen ⊢
    rw [header_length]
    refine ⟨.integer n, ?_⟩
    exact checked_integer hn hlen
  | null t line n ht hn hneg =>
    rw [← header_frame] at hlen ⊢
    rw [header_length]
    refine ⟨.null, ?_⟩
    rcases ht with rfl | rfl
    · show Checked.parseBulkString _ = _
      rw [checked_bulkString hn hlen, if_pos hneg]
    · show Checked.parseArray _ _ = _
      rw [checked_array _ hn hlen, if_pos hneg]
  | bulk line data n hn hcount => exact ⟨.bulkString (some data), bulk_frame hn hcount rest hlen⟩
  | array line items n hn hcount hcap hitems ih =>
    rw [length_header] at hfuel
    have hparse : ∀ e ∈ items, ∀ rest, (e ++ rest).length ≤ isizeMax →
        ∃ v, Checked.parseValueFuel fuel (e ++ rest) = .ok (some (v, e.length)) := by
      intro e he rest hrest
      have hpos := frame_pos (hitems e he)
      have hle := item_length_le he
      obtain ⟨k, rfl⟩ : ∃ k, fuel = k + 1 := ⟨fuel - 1, by omega⟩
      exact ih e he k rest (by omega) hrest
    obtain ⟨vs, hrun⟩ := array_frame hn hcount hcap hparse rest hlen
    exact ⟨.array (some vs), hrun⟩

theorem parse_trap {buf : Bytes} (h : WireTraps buf) (fuel : ℕ) (hfuel : buf.length ≤ fuel + 1)
    (hlen : buf.length ≤ isizeMax) :
    ∃ t, Checked.parseValueFuel (fuel + 1) buf = Checked.trap t := by
  induction h generalizing fuel with
  | bulk line rest n hn hpos hover =>
    refine ⟨.arithmeticOverflow, ?_⟩
    show Checked.parseBulkString _ = _
    rw [checked_bulkString hn hlen, if_neg (by omega), if_pos hover]
  | capacity line rest n hn hpos hcap =>
    refine ⟨.capacityOverflow, ?_⟩
    show Checked.parseArray _ _ = _
    rw [checked_array _ hn hlen, if_neg (by omega), if_pos hcap]
  | item line rest items n hn hcap hcount hitems hrest ih =>
    rw [length_header, List.length_append] at hfuel
    obtain ⟨k, rfl⟩ : ∃ k, fuel = k + 1 := ⟨fuel - 1, by omega⟩
    have hparse : ∀ e ∈ items, ∀ rest, (e ++ rest).length ≤ isizeMax →
        ∃ v, Checked.parseValueFuel (k + 1) (e ++ rest) = .ok (some (v, e.length)) := by
      intro e he rest hbound
      have hle := item_length_le he
      exact parse_frame (hitems e he) k rest (by omega) hbound
    obtain ⟨m, hm⟩ : ∃ m, n.toInt.toNat = items.length + (m + 1) :=
      ⟨n.toInt.toNat - items.length - 1, by omega⟩
    obtain ⟨vs, hrun⟩ := items_run (0x2A :: (line ++ crlf)) rest (m + 1) [] hparse hlen
    have hbound := hlen
    rw [length_header, List.length_append] at hbound
    obtain ⟨t, ht⟩ := ih k (by omega) (by omega)
    -- After the whole elements the loop parses the rest.
    have hslice : Checked.sliceFrom (0x2A :: (line ++ crlf) ++ (items.flatten ++ rest))
        (line.length + 3 + items.flatten.length) = .ok rest := by
      have hdrop := drop_header 0x2A line (items.flatten ++ rest) items.flatten.length
      rw [List.drop_left] at hdrop
      rw [← header_frame, sliceFrom_ok (by rw [length_header, List.length_append]; omega), hdrop]
    rw [header_length] at hrun
    refine ⟨t, ?_⟩
    show Checked.parseArray _ _ = _
    rw [checked_array _ hn hlen, if_neg (by omega), if_neg (Nat.not_lt.mpr hcap), hm, header_frame,
      hrun, Checked.parseItems, hslice]
    show ((Checked.parseValueFuel (k + 1) rest >>= fun r => _) >>= fun r => _) = _
    rw [ht]
    rfl

end Complete

theorem decode_panics_iff (src : Bytes) (hlen : src.length ≤ isizeMax) :
    (∃ t, Checked.decode src = Checked.trap t) ↔ WireTraps src := by
  rcases eq_or_ne src [] with rfl | hsrc
  · refine ⟨fun ⟨t, ht⟩ => (by cases ht), fun h => ?_⟩
    cases h
  have hfuel : Sound (Checked.parseValueFuel (src.length + 1)) src := sound_parseValueFuel _ hlen
  have hsound : Sound Checked.parseValue src := ⟨hfuel.frame, hfuel.traps⟩
  rw [Checked.decode, if_neg hsrc]
  constructor
  · rintro ⟨t, ht⟩
    rcases hrun : Checked.parseValue src with (msg | t') | _ | ⟨v, n⟩
    · rw [hrun] at ht
      cases ht
    · exact hsound.traps hrun
    · rw [hrun] at ht
      cases ht
    · obtain ⟨enc, rest, rfl, -, rfl⟩ := hsound.frame hrun
      have hend : ¬ enc.length > (enc ++ rest).length := by
        rw [List.length_append]
        omega
      rw [hrun] at ht
      change (Checked.advance (enc ++ rest) enc.length >>= fun left => _) = _ at ht
      rw [Checked.advance, if_neg hend] at ht
      cases ht
  · intro h
    obtain ⟨t, ht⟩ := parse_trap h src.length (Nat.le_succ _) hlen
    refine ⟨t, ?_⟩
    show (Checked.parseValueFuel (src.length + 1) src >>= fun r => _) = _
    rw [ht]
    rfl

/-- The decoder returns a frame, nothing yet or an error exactly on all other buffers. -/
theorem decode_returns (src : Bytes) (hlen : src.length ≤ isizeMax) :
    ((∃ frame rest, Checked.decode src = .ok (frame, rest)) ∨
      ∃ msg, Checked.decode src = .error (.invalid msg)) ↔ ¬ WireTraps src := by
  rw [← decode_panics_iff src hlen]
  rcases h : Checked.decode src with (msg | t) | ⟨frame, rest⟩
  · exact ⟨fun _ ⟨t, ht⟩ => (by cases ht), fun _ => Or.inr ⟨msg, rfl⟩⟩
  · refine ⟨?_, fun hnot => absurd ⟨t, rfl⟩ hnot⟩
    rintro (⟨frame, rest, hok⟩ | ⟨msg, hmsg⟩)
    · cases hok
    · cases hmsg
  · exact ⟨fun _ ⟨t, ht⟩ => (by cases ht), fun _ => Or.inl ⟨frame, rest, rfl⟩⟩

/-- A request that is cut in the middle of an element, and the whole request. -/
theorem decode_returns_cut :
    let cut := Str.utf8 "*2\r\n$3\r\nGET\r\n$3\r\nke"
    let whole := cut ++ Str.utf8 "y\r\n"
    let get := Value.array (some [.bulkString (some (Str.utf8 "GET")),
      .bulkString (some (Str.utf8 "key"))])
    (Checked.decode cut = .ok (none, cut) ∧ ¬ WireTraps cut) ∧
      Checked.decode whole = .ok (some get, []) ∧ ¬ WireTraps whole := by
  intro cut whole get
  have hcut : Checked.decode cut = .ok (none, cut) := rfl
  have hwhole : Checked.decode whole = .ok (some get, []) := rfl
  exact ⟨⟨hcut, (decode_returns cut (by decide)).mp (Or.inl ⟨_, _, hcut⟩)⟩,
    hwhole, (decode_returns whole (by decide)).mp (Or.inl ⟨_, _, hwhole⟩)⟩

/-- An array header alone is enough. -/
theorem decode_panics : ¬ ∀ src : Bytes, src.length ≤ isizeMax →
    (∃ frame rest, Checked.decode src = .ok (frame, rest)) ∨
      ∃ msg, Checked.decode src = .error (.invalid msg) := by
  intro h
  have hpanic : Checked.decode (Str.utf8 "*9223372036854775807\r\n") =
      Checked.trap .capacityOverflow := rfl
  rcases h (Str.utf8 "*9223372036854775807\r\n") (by decide) with ⟨frame, rest, hok⟩ | ⟨msg, hmsg⟩
  · cases hpanic.symm.trans hok
  · cases hpanic.symm.trans hmsg

end FireRedis
