import FireRedis.Commands.Names
import FireRedis.Persistence.Reachable
import FireRedis.Persistence.Rebuild

/-!
# Requests for a command

Every command that the parsers build has a spelling as a request, and that
spelling is parsed back to the command, up to scores of equal rank. What the
parsers build is all that can be spelled: lists of arguments with something in
them, a time to live that is a multiple of 1000 modulo 2^64, a count below 2^64.
-/

namespace FireRedis
open Str Decimal

namespace Command

/-- Some request can be for the command. -/
def Spellable : Command → Prop
  | .del ks | .exists ks | .mGet ks => ks ≠ []
  | .mSet entries => entries ≠ []
  | .expire _ ttlMs => 8 ∣ ttlMs.toNat
  | .lPush _ vals | .rPush _ vals => vals ≠ []
  | .sAdd _ members | .sRem _ members | .zRem _ members => members ≠ []
  | .sPop _ count => ∀ n, count = some n → n < 2 ^ 64
  | .hSet _ fields => fields ≠ []
  | .hDel _ fields => fields ≠ []
  | .zAdd _ entries => entries ≠ []
  | _ => True

/-- The seconds whose product with 1000 wraps around to these milliseconds: 125
has an inverse modulo 2^64. -/
def secondsOf (ttlMs : UInt64) : UInt64 := ttlMs / 8 * 2066035336255469781

def expiryArgs : Option UInt64 → List Bytes
  | some ms => [utf8 "PX", displayU64 ms]
  | none => []

def conditionArgs : SetCondition → List Bytes
  | .none => []
  | .nx => [utf8 "NX"]
  | .xx => [utf8 "XX"]

/-- What a client sends behind the name. -/
def args (F : FloatText) : Command → List Bytes
  | .ping | .quit | .info | .flushAll => []
  | .echo msg => [msg]
  | .set k v px condition => [k.bytes, v] ++ expiryArgs px ++ conditionArgs condition
  | .del ks | .exists ks | .mGet ks => ks.map Str.bytes
  | .expire k ttlMs => [k.bytes, displayU64 (secondsOf ttlMs)]
  | .mSet entries => entries.flatMap fun e => [e.1.bytes, e.2]
  | .append k v => [k.bytes, v]
  | .keys pattern => [pattern.bytes]
  | .lPush k vals | .rPush k vals => k.bytes :: vals
  | .lIndex k index => [k.bytes, displayI64 index]
  | .lRange k start stop | .zRange k start stop | .zRevRange k start stop =>
    [k.bytes, displayI64 start, displayI64 stop]
  | .sAdd k members | .sRem k members | .zRem k members => k.bytes :: members
  | .sIsMember k member | .zScore k member => [k.bytes, member]
  | .sPop k count => k.bytes :: (count.map decimal).toList
  | .hSet k fields => k.bytes :: fields.flatMap fun e => [e.1.bytes, e.2]
  | .hGet k field | .hExists k field => [k.bytes, field.bytes]
  | .hDel k fields => k.bytes :: fields.map Str.bytes
  | .zAdd k entries => k.bytes :: entries.flatMap fun e => [(F.toString e.1).bytes, e.2]
  | .zCount k minScore maxScore =>
    [k.bytes, (F.toString minScore).bytes, (F.toString maxScore).bytes]
  | .get k | .ttl k | .pttl k | .incr k | .decr k | .strLen k | .type k | .lPop k | .rPop k
  | .lLen k | .sMembers k | .sCard k | .hLen k | .hKeys k | .hVals k | .hGetAll k | .zCard k =>
    [k.bytes]

def request (F : FloatText) (cmd : Command) : List Value :=
  bulk (utf8 cmd.name) :: (cmd.args F).map bulk

/-- The same command, up to scores of equal rank. -/
inductive Alike : Command → Command → Prop
  | refl (cmd : Command) : Alike cmd cmd
  | zAdd (k : Str) {entries entries' : List (F64 × Bytes)}
      (h : List.Forall₂ (fun e e' => e'.1.rank = e.1.rank ∧ e'.2 = e.2) entries entries') :
      Alike (.zAdd k entries) (.zAdd k entries')
  | zCount (k : Str) {a b a' b' : F64} (ha : a'.rank = a.rank) (hb : b'.rank = b.rank) :
      Alike (.zCount k a b) (.zCount k a' b')

end Command

theorem spellable_alike {cmd cmd' : Command} (h : cmd.Alike cmd') :
    cmd.Spellable ↔ cmd'.Spellable := by
  cases h with
  | refl => exact Iff.rfl
  | zAdd k hentries =>
    show _ ≠ [] ↔ _ ≠ []
    rw [← List.length_pos_iff, ← List.length_pos_iff, hentries.length_eq]
  | zCount k ha hb => exact Iff.rfl

/-! ### What the parsers build -/

theorem readPairs_ne_nil {α β : Type} {read₁ : Value → Parsed α} {read₂ : Value → Parsed β}
    {args : List Value} {ps : List (α × β)} (hlen : ¬ args.length < 2)
    (h : readPairs read₁ read₂ args = .ok ps) : ps ≠ [] := by
  match args with
  | [] => simp at hlen
  | [_] => simp at hlen
  | arg₁ :: arg₂ :: args =>
    rw [readPairs] at h
    obtain ⟨a, -, h⟩ := bind_eq_ok h
    obtain ⟨b, -, h⟩ := bind_eq_ok h
    obtain ⟨rest, -, h⟩ := bind_eq_ok h
    rw [← Except.ok.inj h]
    exact List.cons_ne_nil _ _

section Builds

variable {Q : Command → Prop}

theorem builds_pairs {α β : Type} {read₁ : Value → Parsed α} {read₂ : Value → Parsed β}
    {make : Str → List (α × β) → Command} (h : ∀ k ps, ps ≠ [] → Q (make k ps)) :
    Builds (parseKeyAndPairs read₁ read₂ make) Q := by
  intro args cmd hcmd
  unfold parseKeyAndPairs at hcmd
  split at hcmd
  · split at hcmd
    · cases hcmd
    · rename_i hlen
      obtain ⟨k, -, hcmd⟩ := bind_eq_ok hcmd
      obtain ⟨ps, hps, hcmd⟩ := bind_eq_ok hcmd
      rw [← Except.ok.inj hcmd]
      exact h k ps (readPairs_ne_nil (fun hlt => hlen (Or.inl hlt)) hps)
  · cases hcmd

theorem builds_someKeys {make : List Str → Command} (h : ∀ ks, ks ≠ [] → Q (make ks)) :
    Builds (parseKeys make) Q := by
  intro args cmd hcmd
  unfold parseKeys at hcmd
  split at hcmd
  · obtain ⟨ks, hks, hcmd⟩ := bind_eq_ok hcmd
    rw [← Except.ok.inj hcmd]
    exact h ks (mapM_ne_nil hks)
  · cases hcmd

end Builds

theorem spellable_echo : Builds parseEcho Command.Spellable := by
  intro args cmd h
  obtain ⟨b, rfl⟩ := parseEcho_ok h
  trivial

theorem spellable_get : Builds parseGet Command.Spellable := by
  intro args cmd h
  obtain ⟨-, -, k, -, -, rfl⟩ := parseGet_ok h
  trivial

theorem spellable_set : Builds parseSet Command.Spellable := by
  intro args cmd h
  obtain ⟨-, -, -, -, k, v, o, -, -, -, -, rfl⟩ := parseSet_ok h
  trivial

theorem spellable_expire : Builds parseExpire Command.Spellable := by
  intro args cmd h
  obtain ⟨-, -, -, k, n, -, -, -, rfl⟩ := parseExpire_ok h
  show 8 ∣ (n * 1000).toNat
  rw [UInt64.toNat_mul]
  exact (Nat.dvd_mod_iff (by decide)).mpr (Dvd.dvd.mul_left (by decide) _)

theorem spellable_mset : Builds parseMset Command.Spellable := by
  intro args cmd h
  unfold parseMset at h
  split at h
  · split at h
    · cases h
    · rename_i hlen
      obtain ⟨entries, hentries, h⟩ := bind_eq_ok h
      rw [← Except.ok.inj h]
      exact readPairs_ne_nil (fun hlt => hlen (Or.inl hlt)) hentries
  · cases h

theorem spellable_sPop : Builds parseSPop Command.Spellable := by
  intro args cmd h
  unfold parseSPop at h
  split at h
  · obtain ⟨k, -, h⟩ := bind_eq_ok h
    rw [← Except.ok.inj h]
    intro n hn
    cases hn
  · obtain ⟨k, -, h⟩ := bind_eq_ok h
    obtain ⟨c, -, h⟩ := bind_eq_ok h
    rw [← Except.ok.inj h]
    intro n hn
    rw [← Option.some.inj hn]
    exact c.toNat_lt
  · cases h

theorem parsers_spellable (F : FloatText) :
    (parsers F).Forall fun p => Builds p.2 Command.Spellable := by
  have hone : ∀ {make : Str → Command}, (∀ k, (make k).Spellable) →
      Builds (parseKey make) Command.Spellable := builds_key
  exact ⟨builds_const trivial, spellable_echo, builds_const trivial, spellable_get, spellable_set,
    builds_someKeys fun _ h => h, builds_someKeys fun _ h => h, spellable_expire,
    hone fun _ => trivial, hone fun _ => trivial, hone fun _ => trivial, hone fun _ => trivial,
    builds_someKeys fun _ h => h, spellable_mset, builds_keyAnd fun _ _ => trivial,
    hone fun _ => trivial, hone fun _ => trivial, hone fun _ => trivial, builds_const trivial,
    builds_nullary trivial, builds_keyAndMany fun _ _ h => h, builds_keyAndMany fun _ _ h => h,
    hone fun _ => trivial, hone fun _ => trivial, hone fun _ => trivial,
    builds_keyAnd fun _ _ => trivial, builds_keyAndTwo fun _ _ _ => trivial,
    builds_keyAndMany fun _ _ h => h, builds_keyAndMany fun _ _ h => h, hone fun _ => trivial,
    builds_keyAnd fun _ _ => trivial, hone fun _ => trivial, spellable_sPop,
    builds_pairs fun _ _ h => h, builds_keyAnd fun _ _ => trivial,
    builds_keyAndMany fun _ _ h => h, hone fun _ => trivial, builds_keyAnd fun _ _ => trivial,
    hone fun _ => trivial, hone fun _ => trivial, hone fun _ => trivial,
    builds_pairs fun _ _ h => h, builds_keyAndTwo fun _ _ _ => trivial,
    builds_keyAndTwo fun _ _ _ => trivial, builds_keyAnd fun _ _ => trivial,
    builds_keyAndMany fun _ _ h => h, hone fun _ => trivial,
    builds_keyAndTwo fun _ _ _ => trivial⟩

theorem spellable_of_parse {F : FloatText} {args : List Value} {cmd : Command}
    (h : tryFrom F args = .ok cmd) : cmd.Spellable := by
  unfold tryFrom at h
  split at h
  · cases h
  · split at h
    · rename_i parse hparse
      obtain ⟨p, hp, rfl⟩ := Option.map_eq_some_iff.mp hparse
      have hmem := List.mem_of_find?_eq_some hp
      exact List.forall_iff_forall_mem.mp (parsers_spellable F) p hmem _ _ h
    · cases h
  · cases h

/-! ### Reading a request back -/

theorem bulkToI64_displayI64 (i : Int64) : bulkToI64 (bulk (displayI64 i)) = .ok i := by
  have hnumber : (Str.fromUtf8Lossy (displayI64 i)).bytes = displayI64 i :=
    Str.fromUtf8Lossy_of_ascii _ (ascii_displayI64 i)
  simp only [bulk, bulkToI64, hnumber, parseI64_displayI64]
  rfl

theorem bulkToU64_decimal {n : ℕ} (h : n < 2 ^ 64) :
    bulkToU64 (bulk (decimal n)) = .ok (UInt64.ofNat n) := by
  have hnumber : (Str.fromUtf8Lossy (decimal n)).bytes = decimal n :=
    Str.fromUtf8Lossy_of_ascii _ (ascii_decimal n)
  apply bulkToU64_of_parse
  rw [hnumber, parseU64_decimal n h]

theorem secondsOf_mul {ttlMs : UInt64} (h : 8 ∣ ttlMs.toNat) :
    Command.secondsOf ttlMs * 1000 = ttlMs := by
  have hinverse : (2066035336255469781 : UInt64) * 1000 = 8 := by decide
  rw [Command.secondsOf, UInt64.mul_assoc, hinverse, ← UInt64.toNat_inj, UInt64.toNat_mul,
    UInt64.toNat_div]
  show ttlMs.toNat / 8 * 8 % 2 ^ 64 = ttlMs.toNat
  rw [Nat.div_mul_cancel h, Nat.mod_eq_of_lt ttlMs.toNat_lt]

section Shapes

variable (name : Value) (key : Str)

theorem mapM_bulkToString (ks : List Str) :
    ((ks.map Str.bytes).map bulk).mapM bulkToString = .ok ks := by
  induction ks with
  | nil => rfl
  | cons k ks ih =>
    rw [List.map_cons, List.map_cons, List.mapM_cons, bulkToString_bulk, ih]
    rfl

theorem parseKey_bulk (make : Str → Command) :
    parseKey make [name, bulk key.bytes] = .ok (make key) := by
  rw [parseKey, bulkToString_bulk]
  rfl

theorem parseKeyAnd_bulk {α : Type} {read : Value → Parsed α} (make : Str → α → Command)
    {b : Bytes} {a : α} (h : read (bulk b) = .ok a) :
    parseKeyAnd read make [name, bulk key.bytes, bulk b] = .ok (make key a) := by
  rw [parseKeyAnd, bulkToString_bulk, h]
  rfl

theorem parseKeyAndTwo_bulk {α : Type} {read : Value → Parsed α} (make : Str → α → α → Command)
    {b₁ b₂ : Bytes} {a₁ a₂ : α} (h₁ : read (bulk b₁) = .ok a₁) (h₂ : read (bulk b₂) = .ok a₂) :
    parseKeyAndTwo read make [name, bulk key.bytes, bulk b₁, bulk b₂] = .ok (make key a₁ a₂) := by
  rw [parseKeyAndTwo, bulkToString_bulk, h₁, h₂]
  rfl

theorem parseKeys_bulk (make : List Str → Command) {ks : List Str} (hne : ks ≠ []) :
    parseKeys make (name :: (ks.map Str.bytes).map bulk) = .ok (make ks) := by
  obtain ⟨k, ks, rfl⟩ := List.exists_cons_of_ne_nil hne
  have hmany := mapM_bulkToString (k :: ks)
  rw [List.map_cons, List.map_cons] at hmany ⊢
  rw [parseKeys, hmany]
  rfl

theorem parseKeyAndMany_strings (make : Str → List Str → Command) {fields : List Str}
    (hne : fields ≠ []) :
    parseKeyAndMany bulkToString make
      (name :: bulk key.bytes :: (fields.map Str.bytes).map bulk) = .ok (make key fields) := by
  obtain ⟨f, fields, rfl⟩ := List.exists_cons_of_ne_nil hne
  have hmany := mapM_bulkToString (f :: fields)
  rw [List.map_cons, List.map_cons] at hmany ⊢
  rw [parseKeyAndMany, bulkToString_bulk, hmany]
  rfl

end Shapes

theorem parseMset_bulk (name : Value) {entries : List (Str × Bytes)} (hne : entries ≠ []) :
    parseMset (name :: (entries.flatMap fun e => [e.1.bytes, e.2]).map bulk) =
      .ok (.mSet entries) := by
  have hlen := length_pairs (fun e : Str × Bytes => e.1.bytes) Prod.snd entries
  have hpos : 0 < entries.length := List.length_pos_iff.mpr hne
  have hpairs := readPairs_bulk (fun e : Str × Bytes => bulkToString_bulk e.1)
    (fun e => show bulkToBytes (bulk e.2) = .ok e.2 from rfl) entries
  rw [List.map_id'] at hpairs
  rw [parseMset, if_neg (by rw [hlen]; omega), hpairs]
  rfl

theorem parseSPop_bulk (name : Value) (key : Str) {count : Option ℕ}
    (h : ∀ n, count = some n → n < 2 ^ 64) :
    parseSPop (name :: bulk key.bytes :: (count.map decimal).toList.map bulk) =
      .ok (.sPop key count) := by
  cases count with
  | none =>
    show parseSPop [name, bulk key.bytes] = _
    rw [parseSPop, bulkToString_bulk]
    rfl
  | some n =>
    have hn := h n rfl
    show parseSPop [name, bulk key.bytes, bulk (decimal n)] = _
    rw [parseSPop, bulkToString_bulk, bulkToU64_decimal hn]
    show Except.ok (Command.sPop key (some (UInt64.ofNat n).toNat)) = _
    rw [UInt64.toNat_ofNat_of_lt' hn]

theorem parseSetOptions_bulk (px : Option UInt64) (condition : SetCondition) :
    parseSetOptions ((Command.expiryArgs px ++ Command.conditionArgs condition).map bulk) none
      .none = .ok (px, condition) := by
  have hpx : toAsciiUppercase (Str.fromUtf8Lossy (utf8 "PX")).bytes = utf8 "PX" := by decide
  have hcondition : ∀ px, parseSetOptions ((Command.conditionArgs condition).map bulk) px .none =
      .ok (px, condition) := by
    intro px
    cases condition with
    | none => rfl
    | nx => rfl
    | xx => rfl
  cases px with
  | none => exact hcondition none
  | some ms =>
    show parseSetOptions (bulk (utf8 "PX") :: bulk (displayU64 ms) ::
      (Command.conditionArgs condition).map bulk) none .none = _
    rw [parseSetOptions]
    show (do
      let ttl ← bulkToU64 (bulk (displayU64 ms))
      parseSetOptions ((Command.conditionArgs condition).map bulk) (some ttl) .none :
        Parsed (Option UInt64 × SetCondition)) = _
    rw [bulkToU64_displayU64]
    exact hcondition (some ms)

theorem parseSet_bulk (name : Value) (key : Str) (value : Bytes) (px : Option UInt64)
    (condition : SetCondition) :
    parseSet (name :: bulk key.bytes :: bulk value ::
      (Command.expiryArgs px ++ Command.conditionArgs condition).map bulk) =
        .ok (.set key value px condition) := by
  have hvalue : bulkToBytes (bulk value) = .ok value := rfl
  simp only [parseSet, bulkToString_bulk, hvalue, parseSetOptions_bulk]
  rfl

theorem parseExpire_bulk (name : Value) (key : Str) {ttlMs : UInt64} (h : 8 ∣ ttlMs.toNat) :
    parseExpire [name, bulk key.bytes, bulk (displayU64 (Command.secondsOf ttlMs))] =
      .ok (.expire key ttlMs) := by
  rw [parseExpire, bulkToString_bulk, bulkToU64_displayU64]
  show Except.ok (Command.expire key (Command.secondsOf ttlMs * 1000)) = _
  rw [secondsOf_mul h]

section Scores

variable {F : FloatText} (hF : F.RoundTrips)
include hF

theorem bulkToF64_toString (x : F64) :
    ∃ y, bulkToF64 F (bulk (F.toString x).bytes) = .ok y ∧ y.rank = x.rank := by
  obtain ⟨y, hy, hrank⟩ := hF x
  refine ⟨y, ?_, hrank⟩
  simp only [bulk, bulkToF64, Str.fromUtf8Lossy_bytes, hy]
  rfl

theorem parseZAdd_bulk (name : Value) (key : Str) {entries : List (F64 × Bytes)}
    (hne : entries ≠ []) : ∃ entries',
    parseZAdd F (name :: bulk key.bytes ::
      (entries.flatMap fun e => [(F.toString e.1).bytes, e.2]).map bulk) =
        .ok (.zAdd key entries') ∧
      List.Forall₂ (fun e e' => e'.1.rank = e.1.rank ∧ e'.2 = e.2) entries entries' := by
  choose y hy hrank using fun e : F64 × Bytes => bulkToF64_toString hF e.1
  refine ⟨entries.map fun e => (y e, e.2), ?_, ?_⟩
  · exact parseKeyAndPairs_bulk .zAdd hy (fun e => show bulkToBytes (bulk e.2) = .ok e.2 from rfl)
      name key hne
  · rw [List.forall₂_map_right_iff, List.forall₂_same]
    exact fun e _ => ⟨hrank e, rfl⟩

/-! ### Requests and commands -/

/-- The request of a command is parsed to it, up to scores of equal rank. -/
theorem parse_request {cmd : Command} (h : cmd.Spellable) :
    ∃ cmd', tryFrom F (cmd.request F) = .ok cmd' ∧ cmd.Alike cmd' := by
  have hsame : tryFrom F (cmd.request F) = .ok cmd →
      ∃ cmd', tryFrom F (cmd.request F) = .ok cmd' ∧ cmd.Alike cmd' :=
    fun hcmd => ⟨cmd, hcmd, .refl cmd⟩
  cases cmd with
  | ping => exact hsame rfl
  | echo msg => exact hsame rfl
  | quit => exact hsame rfl
  | info => exact hsame rfl
  | flushAll => exact hsame rfl
  | get k =>
    apply hsame
    show parseGet [bulk (utf8 "GET"), bulk k.bytes] = _
    rw [parseGet, bulkToString_bulk]
    rfl
  | set k v px condition => exact hsame (parseSet_bulk (bulk (utf8 "SET")) k v px condition)
  | del ks => exact hsame (parseKeys_bulk (bulk (utf8 "DEL")) .del h)
  | «exists» ks => exact hsame (parseKeys_bulk (bulk (utf8 "EXISTS")) .exists h)
  | mGet ks => exact hsame (parseKeys_bulk (bulk (utf8 "MGET")) .mGet h)
  | mSet entries => exact hsame (parseMset_bulk (bulk (utf8 "MSET")) h)
  | expire k ttlMs => exact hsame (parseExpire_bulk (bulk (utf8 "EXPIRE")) k h)
  | append k v => exact hsame (parseKeyAnd_bulk (bulk (utf8 "APPEND")) k .append rfl)
  | lPush k vals => exact hsame (parseKeyAndMany_bulk .lPush (bulk (utf8 "LPUSH")) k h)
  | rPush k vals => exact hsame (parseKeyAndMany_bulk .rPush (bulk (utf8 "RPUSH")) k h)
  | lIndex k index =>
    exact hsame (parseKeyAnd_bulk (bulk (utf8 "LINDEX")) k .lIndex (bulkToI64_displayI64 index))
  | lRange k start stop =>
    exact hsame (parseKeyAndTwo_bulk (bulk (utf8 "LRANGE")) k .lRange (bulkToI64_displayI64 start)
      (bulkToI64_displayI64 stop))
  | sAdd k members => exact hsame (parseKeyAndMany_bulk .sAdd (bulk (utf8 "SADD")) k h)
  | sRem k members => exact hsame (parseKeyAndMany_bulk .sRem (bulk (utf8 "SREM")) k h)
  | sIsMember k member => exact hsame (parseKeyAnd_bulk (bulk (utf8 "SISMEMBER")) k .sIsMember rfl)
  | sPop k count => exact hsame (parseSPop_bulk (bulk (utf8 "SPOP")) k h)
  | hSet k fields =>
    have hparse := parseKeyAndPairs_bulk .hSet (fun e : Str × Bytes => bulkToString_bulk e.1)
      (fun e => show bulkToBytes (bulk e.2) = .ok e.2 from rfl) (bulk (utf8 "HSET")) k h
    rw [List.map_id'] at hparse
    exact hsame hparse
  | hGet k field =>
    exact hsame (parseKeyAnd_bulk (bulk (utf8 "HGET")) k .hGet (bulkToString_bulk field))
  | hDel k fields => exact hsame (parseKeyAndMany_strings (bulk (utf8 "HDEL")) k .hDel h)
  | hExists k field =>
    exact hsame (parseKeyAnd_bulk (bulk (utf8 "HEXISTS")) k .hExists (bulkToString_bulk field))
  | zAdd k entries =>
    obtain ⟨entries', hparse, halike⟩ := parseZAdd_bulk hF (bulk (utf8 "ZADD")) k h
    exact ⟨_, hparse, .zAdd k halike⟩
  | zRange k start stop =>
    exact hsame (parseKeyAndTwo_bulk (bulk (utf8 "ZRANGE")) k .zRange (bulkToI64_displayI64 start)
      (bulkToI64_displayI64 stop))
  | zRevRange k start stop =>
    exact hsame (parseKeyAndTwo_bulk (bulk (utf8 "ZREVRANGE")) k .zRevRange
      (bulkToI64_displayI64 start) (bulkToI64_displayI64 stop))
  | zScore k member => exact hsame (parseKeyAnd_bulk (bulk (utf8 "ZSCORE")) k .zScore rfl)
  | zRem k members => exact hsame (parseKeyAndMany_bulk .zRem (bulk (utf8 "ZREM")) k h)
  | zCount k minScore maxScore =>
    obtain ⟨a, ha, harank⟩ := bulkToF64_toString hF minScore
    obtain ⟨b, hb, hbrank⟩ := bulkToF64_toString hF maxScore
    exact ⟨_, parseKeyAndTwo_bulk (bulk (utf8 "ZCOUNT")) k .zCount ha hb, .zCount k harank hbrank⟩
  | ttl k => exact hsame (parseKey_bulk (bulk (utf8 "TTL")) k .ttl)
  | pttl k => exact hsame (parseKey_bulk (bulk (utf8 "PTTL")) k .pttl)
  | incr k => exact hsame (parseKey_bulk (bulk (utf8 "INCR")) k .incr)
  | decr k => exact hsame (parseKey_bulk (bulk (utf8 "DECR")) k .decr)
  | strLen k => exact hsame (parseKey_bulk (bulk (utf8 "STRLEN")) k .strLen)
  | type k => exact hsame (parseKey_bulk (bulk (utf8 "TYPE")) k .type)
  | keys pattern => exact hsame (parseKey_bulk (bulk (utf8 "KEYS")) pattern .keys)
  | lPop k => exact hsame (parseKey_bulk (bulk (utf8 "LPOP")) k .lPop)
  | rPop k => exact hsame (parseKey_bulk (bulk (utf8 "RPOP")) k .rPop)
  | lLen k => exact hsame (parseKey_bulk (bulk (utf8 "LLEN")) k .lLen)
  | sMembers k => exact hsame (parseKey_bulk (bulk (utf8 "SMEMBERS")) k .sMembers)
  | sCard k => exact hsame (parseKey_bulk (bulk (utf8 "SCARD")) k .sCard)
  | hLen k => exact hsame (parseKey_bulk (bulk (utf8 "HLEN")) k .hLen)
  | hKeys k => exact hsame (parseKey_bulk (bulk (utf8 "HKEYS")) k .hKeys)
  | hVals k => exact hsame (parseKey_bulk (bulk (utf8 "HVALS")) k .hVals)
  | hGetAll k => exact hsame (parseKey_bulk (bulk (utf8 "HGETALL")) k .hGetAll)
  | zCard k => exact hsame (parseKey_bulk (bulk (utf8 "ZCARD")) k .zCard)

/-- Whatever the parsers build from any arguments has a spelling that they parse
back to it, up to scores of equal rank; and they build exactly the commands that
can be spelled. -/
theorem commands_spelled :
    (∀ args cmd, tryFrom F args = .ok cmd →
      ∃ cmd', tryFrom F (cmd.request F) = .ok cmd' ∧ cmd.Alike cmd') ∧
    ∀ cmd : Command, cmd.Spellable ↔ ∃ args cmd', tryFrom F args = .ok cmd' ∧ cmd.Alike cmd' := by
  refine ⟨fun args cmd h => parse_request hF (spellable_of_parse h), fun cmd => ⟨fun h => ?_, ?_⟩⟩
  · exact ⟨cmd.request F, parse_request hF h⟩
  · rintro ⟨args, cmd', hparse, halike⟩
    exact (spellable_alike halike).mpr (spellable_of_parse hparse)

end Scores

/-- SADD of no members cannot be spelled, EXPIRE of eight milliseconds can. -/
theorem commands_spelled_edges :
    (¬ ∃ args cmd', tryFrom bitText args = .ok cmd' ∧
      (Command.sAdd (Str.lit "k") []).Alike cmd') ∧
    ∃ args cmd', tryFrom bitText args = .ok cmd' ∧ (Command.expire (Str.lit "k") 8).Alike cmd' := by
  have h := (commands_spelled bitText_roundTrips).2
  exact ⟨fun hspelled => (h (.sAdd (Str.lit "k") [])).mpr hspelled rfl,
    (h (.expire (Str.lit "k") 8)).mp (Nat.dvd_refl 8)⟩

end FireRedis
