import FireRedis.Resp.Stable

/-!
# Decoding undoes encoding, at any packet boundary

`decode` takes the encoding of a value off any buffer and gives the value with
its absent spellings turned into `null`. Fed in chunks it gives the frames, the
fault and the left-over bytes of the whole stream.
-/

namespace FireRedis
open Incremental

theorem no_crlf_of_no_cr {l : Bytes} (h : ∀ b ∈ l, b ≠ 0x0D) : ¬ crlf <:+: l := fun hc =>
  h 0x0D (hc.subset (List.mem_cons_self ..)) rfl

theorem no_crlf_decimal (n : ℕ) : ¬ crlf <:+: Decimal.decimal n := by
  refine no_crlf_of_no_cr fun b hb he => ?_
  have hd := Decimal.isDigit_of_mem_decimal hb
  rw [he] at hd
  exact absurd hd (by decide)

theorem no_crlf_displayI64 (i : Int64) : ¬ crlf <:+: Decimal.displayI64 i := by
  refine no_crlf_of_no_cr fun b hb he => ?_
  subst he
  unfold Decimal.displayI64 at hb
  split at hb
  · rcases List.mem_cons.mp hb with h | h
    · exact absurd h (by decide)
    · exact absurd (Decimal.isDigit_of_mem_decimal h) (by decide)
  · exact absurd (Decimal.isDigit_of_mem_decimal hb) (by decide)

theorem parseLineI64_displayI64 (what : String) (i : Int64) :
    parseLineI64 what (Decimal.displayI64 i) = .ok i := by
  have hv : Utf8.Valid (Decimal.displayI64 i) :=
    Utf8.valid_of_ascii _ (Decimal.ascii_displayI64 i)
  simp only [parseLineI64, Str.fromUtf8, hv, dite_true, Decimal.parseI64_displayI64]

theorem parseLineI64_decimal (what : String) (n : ℕ) (h : n < 2 ^ 63) :
    ∃ i : Int64, parseLineI64 what (Decimal.decimal n) = .ok i ∧ i.toInt = n := by
  have hv : Utf8.Valid (Decimal.decimal n) := Utf8.valid_of_ascii _ (Decimal.ascii_decimal n)
  refine ⟨Int64.ofInt n, ?_, Int64.toInt_ofInt_of_le (by omega) (by omega)⟩
  simp only [parseLineI64, Str.fromUtf8, hv, dite_true, Decimal.parseI64_of_lt n h]

theorem drop_line (tag : UInt8) (line rest : Bytes) :
    (tag :: (line ++ crlf ++ rest)).drop (line.length + 3) = rest := by
  rw [List.drop_succ_cons, List.drop_left' (by rw [List.length_append]; rfl)]

theorem parse_simpleString (s : Str) (rest : Bytes) (h : ¬ crlf <:+: s.bytes) :
    parseValue (encode (.simpleString s) ++ rest) =
      .ok (some (.simpleString s, (encode (.simpleString s)).length)) := by
  have hl := parseLine_line 0x2B s.bytes rest h
  have hlen : (encode (.simpleString s)).length = s.bytes.length + 3 := by
    simp [encode, crlf]
  rw [parseValue_eq, hlen]
  show parseSimpleString (0x2B :: (s.bytes ++ crlf ++ rest)) = _
  rw [parseSimpleString, hl]
  simp only [Str.fromUtf8Lossy_bytes]

theorem parse_errorText (s : Str) (rest : Bytes) (h : ¬ crlf <:+: s.bytes) :
    parseValue (encode (.error s) ++ rest) =
      .ok (some (.error s, (encode (.error s)).length)) := by
  have hl := parseLine_line 0x2D s.bytes rest h
  have hlen : (encode (.error s)).length = s.bytes.length + 3 := by
    simp [encode, crlf]
  rw [parseValue_eq, hlen]
  show parseError (0x2D :: (s.bytes ++ crlf ++ rest)) = _
  rw [parseError, hl]
  simp only [Str.fromUtf8Lossy_bytes]

theorem parse_integer (i : Int64) (rest : Bytes) :
    parseValue (encode (.integer i) ++ rest) =
      .ok (some (.integer i, (encode (.integer i)).length)) := by
  have hl := parseLine_line 0x3A (Decimal.displayI64 i) rest (no_crlf_displayI64 i)
  have hlen : (encode (.integer i)).length = (Decimal.displayI64 i).length + 3 := by
    simp [encode, crlf]
  rw [parseValue_eq, hlen]
  show parseInteger (0x3A :: (Decimal.displayI64 i ++ crlf ++ rest)) = _
  rw [parseInteger_eq, afterNumber_run hl (parseLineI64_displayI64 "integer" i)]

theorem parse_null (rest : Bytes) :
    parseValue (encode .null ++ rest) = .ok (some (.null, (encode .null).length)) := by
  have hl := parseLine_line 0x24 (Str.utf8 "-1") rest ((findCrlf_eq_none _).mp (by decide))
  rw [parseValue_eq]
  show parseBulkString (0x24 :: (Str.utf8 "-1" ++ crlf ++ rest)) = _
  rw [parseBulkString, hl]
  rfl

theorem parse_arrayNone (rest : Bytes) :
    parseValue (encode (.array none) ++ rest) =
      .ok (some (.null, (encode (.array none)).length)) := by
  have hl := parseLine_line 0x2A (Str.utf8 "-1") rest ((findCrlf_eq_none _).mp (by decide))
  rw [parseValue_eq]
  show parseArray parseValue (0x2A :: (Str.utf8 "-1" ++ crlf ++ rest)) = _
  rw [parseArray, hl]
  rfl

theorem parse_bulkString (b rest : Bytes) (h : b.length ≤ isizeMax) :
    parseValue (encode (.bulkString (some b)) ++ rest) =
      .ok (some (.bulkString (some b), (encode (.bulkString (some b))).length)) := by
  have hlt : b.length < 2 ^ 63 := by unfold isizeMax at h; omega
  have hl := parseLine_line 0x24 (Decimal.decimal b.length) (b ++ crlf ++ rest)
    (no_crlf_decimal b.length)
  obtain ⟨i, hi, hn⟩ := parseLineI64_decimal "bulk length" b.length hlt
  have hc : crlf.length = 2 := rfl
  have hlen : (encode (.bulkString (some b))).length =
      (Decimal.decimal b.length).length + 3 + b.length + 2 := by
    simp only [encode, List.length_cons, List.length_append, hc]
  have hbuf : encode (.bulkString (some b)) ++ rest =
      0x24 :: (Decimal.decimal b.length ++ crlf ++ (b ++ crlf ++ rest)) := by
    simp only [encode, List.cons_append, List.append_assoc]
  have hdrop := drop_line 0x24 (Decimal.decimal b.length) (b ++ crlf ++ rest)
  have hend : (0x24 :: (Decimal.decimal b.length ++ crlf ++ (b ++ crlf ++ rest))).drop
      ((Decimal.decimal b.length).length + 3 + b.length) = crlf ++ rest := by
    rw [← List.drop_drop, hdrop, List.append_assoc, List.drop_left]
  have hnat : i.toInt.toNat = b.length := by omega
  rw [parseValue_eq, hlen, hbuf]
  show parseBulkString (0x24 :: (Decimal.decimal b.length ++ crlf ++ (b ++ crlf ++ rest))) = _
  rw [parseBulkString_eq, afterNumber_run hl hi, bulkBody, if_neg (by omega), hnat, if_neg (by
    simp only [List.length_cons, List.length_append, hc]
    omega), hend, if_neg (by simp [crlf]), hdrop, List.append_assoc, List.take_left]

theorem parseItems_encode (buf rest : Bytes) (items : List Value)
    (h : ∀ v ∈ items, ∀ rest, parseValue (encode v ++ rest) =
      .ok (some (norm v, (encode v).length)))
    (offset : ℕ) (acc : List Value) (hbuf : buf.drop offset = items.flatMap encode ++ rest) :
    parseItems parseValue buf items.length offset acc =
      .ok (some (acc ++ items.map norm, offset + (items.flatMap encode).length)) := by
  induction items generalizing offset acc with
  | nil => simp [parseItems]
  | cons v items ih =>
    have hv := h v (List.mem_cons_self ..) (items.flatMap encode ++ rest)
    rw [List.flatMap_cons, List.append_assoc] at hbuf
    have hnext : buf.drop (offset + (encode v).length) = items.flatMap encode ++ rest := by
      rw [← List.drop_drop, hbuf, List.drop_left]
    have ih := ih (fun u hu => h u (List.mem_cons_of_mem _ hu)) _ (acc ++ [norm v]) hnext
    simp only [List.length_cons, parseItems, hbuf, hv]
    show parseItems parseValue buf items.length (offset + (encode v).length)
      (acc ++ [norm v]) = _
    rw [ih, List.flatMap_cons, List.length_append, List.map_cons, List.append_assoc,
      Nat.add_assoc]
    rfl

theorem parse_array (items : List Value) (rest : Bytes)
    (hfits : items.length * sizeOfValue ≤ isizeMax)
    (h : ∀ v ∈ items, ∀ rest, parseValue (encode v ++ rest) =
      .ok (some (norm v, (encode v).length))) :
    parseValue (encode (.array (some items)) ++ rest) =
      .ok (some (.array (some (items.map norm)), (encode (.array (some items))).length)) := by
  have hlt : items.length < 2 ^ 63 := by unfold isizeMax sizeOfValue at hfits; omega
  have hl := parseLine_line 0x2A (Decimal.decimal items.length) (items.flatMap encode ++ rest)
    (no_crlf_decimal items.length)
  obtain ⟨i, hi, hn⟩ := parseLineI64_decimal "array length" items.length hlt
  have hc : crlf.length = 2 := rfl
  have hlen : (encode (.array (some items))).length =
      (Decimal.decimal items.length).length + 3 + (items.flatMap encode).length := by
    simp only [encode, encodeItems_eq, List.length_cons, List.length_append, hc]
  have hbuf : encode (.array (some items)) ++ rest =
      0x2A :: (Decimal.decimal items.length ++ crlf ++ (items.flatMap encode ++ rest)) := by
    simp only [encode, encodeItems_eq, List.cons_append, List.append_assoc]
  have hdrop := drop_line 0x2A (Decimal.decimal items.length) (items.flatMap encode ++ rest)
  have hnat : i.toInt.toNat = items.length := by omega
  rw [parseValue_eq, hlen, hbuf]
  show parseArray parseValue (0x2A :: (Decimal.decimal items.length ++ crlf ++
    (items.flatMap encode ++ rest))) = _
  rw [parseArray_eq, afterNumber_run hl hi, arrayBody, if_neg (by omega), hnat,
    if_neg (by omega), parseItems_encode _ rest items h _ [] hdrop]
  rfl

theorem parseValue_encode (v : Value) (hfits : v.Fits) (htext : v.NoCrlf) (rest : Bytes) :
    parseValue (encode v ++ rest) = .ok (some (norm v, (encode v).length)) := by
  induction v using Value.induction generalizing rest with
  | simpleString s => exact parse_simpleString s rest htext
  | error s => exact parse_errorText s rest htext
  | integer i => exact parse_integer i rest
  | bulkString b =>
    cases b with
    | none => exact parse_null rest
    | some b => exact parse_bulkString b rest hfits
  | arrayNone => exact parse_arrayNone rest
  | array items ih =>
    rw [Value.Fits, Value.all_array] at hfits
    rw [Value.NoCrlf, Value.all_array] at htext
    rw [norm, normItems_eq]
    exact parse_array items rest hfits.1 fun v hv rest =>
      ih v hv (hfits.2 v hv) (htext.2 v hv) rest
  | null => exact parse_null rest

/-- Decoding undoes encoding for every value that fits in memory and whose texts
hold no CR LF, whatever follows it in the buffer. -/
theorem decode_encode (v : Value) (hfits : v.Fits) (htext : v.NoCrlf) (rest : Bytes) :
    decode (encode v ++ rest) = (.ok (some (norm v)), rest) := by
  rw [decode_eq, parseValue_encode v hfits htext rest]
  simp only [List.drop_left]

/-- A text ending in CR, absent values and a payload holding CR LF, in nested arrays. -/
theorem decode_encode_nested :
    decode (encode (.array (some [.simpleString (Str.lit "a\r"), .array none,
        .array (some [.bulkString (some (Str.utf8 "\r\n")), .bulkString none])])) ++
        Str.utf8 "\n+") =
      (.ok (some (.array (some [.simpleString (Str.lit "a\r"), .null,
        .array (some [.bulkString (some (Str.utf8 "\r\n")), .null])]))), Str.utf8 "\n+") :=
  decode_encode _ (by simp [Value.Fits, Value.All, Value.AllItems, Value.FitsHere]; decide)
    (by simp [Value.NoCrlf, Value.All, Value.AllItems, Value.NoCrlfHere]; decide) _

theorem inverts_wire : Inverts decode encode Value.Wire := fun v hv rest => by
  rw [decode_eq, parseValue_encode v hv.1 hv.2.1 rest, norm_of_normal v hv.2.2]
  simp only [List.drop_left]

theorem wire_of_drain (stream : Bytes) : ∀ v ∈ (drain decode stream).1, v.Wire := by
  induction stream using drain_induction decode_lawful (by omega) with
  | frame stream rest u hd ih =>
    rw [drain_frame decode_lawful (by omega) hd]
    exact List.forall_mem_cons.mpr ⟨wire_of_decode hd, ih⟩
  | more stream hd =>
    rw [drain_more decode_lawful (b := stream) (by rw [hd])]
    exact nofun
  | fail stream e hd =>
    rw [drain_fail (b := stream) (e := e) (by rw [hd])]
    exact nofun

/-- The frames, the fault and the bytes left over do not depend on how the
stream was cut; a frame takes at least three bytes and a call without a frame
takes none. -/
theorem feed_chunks :
    (∀ chunks : List Bytes, feed decode [] chunks = feed decode [] [chunks.flatten]) ∧
      ∀ buf : Bytes, match decode buf with
        | (.ok (some _), rest) => ∃ n, 3 ≤ n ∧ n ≤ buf.length ∧ rest = buf.drop n
        | (.ok none, rest) => rest = buf
        | (.error _, rest) => rest = buf := by
  refine ⟨fun chunks => ?_, fun buf => ?_⟩
  · have hall := feed_eq_drain decode_lawful (by omega) chunks [] decode_nil
    have hone := feed_eq_drain decode_lawful (by omega) [chunks.flatten] [] decode_nil
    rw [hall, hone, List.flatten_singleton]
  · rcases hd : decode buf with ⟨r, rest⟩
    match r with
    | .ok (some v) =>
      obtain ⟨n, hlo, hhi, hrest, -⟩ := decode_lawful.frame (b := buf) (a := v) (by rw [hd])
      rw [hd] at hrest
      exact ⟨n, hlo, hhi, hrest⟩
    | .ok none =>
      have hrest := decode_lawful.more (b := buf) (by rw [hd])
      rw [hd] at hrest
      exact hrest
    | .error e =>
      have hrest := (decode_lawful.fail (b := buf) (e := e) (by rw [hd])).1
      rw [hd] at hrest
      exact hrest

end FireRedis
