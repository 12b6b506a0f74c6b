import FireRedis.Commands.Atomic

/-!
# What a reply can be

No text that a parser or a handler puts into a simple string or an error holds
CR LF, with one exception: the reply to an unknown command quotes its name. Only
LRANGE and ZCOUNT can panic instead of replying.
-/

namespace FireRedis
open Std
open Program (Returns returns_pure)

/-! ### Errors of the parsers -/

/-- The errors of a parser are texts of one line. -/
def OneLine {α : Type} (p : Parsed α) : Prop := ∀ e, p = .error e → e.NoCrlf

section Parse

variable {α β : Type}

theorem oneLine_pure (a : α) : OneLine (pure a : Parsed α) := nofun

theorem oneLine_reject {text : String} (h : findCrlf (Str.lit text).bytes = none) :
    OneLine (reject text : Parsed α) := by
  intro e he
  rw [← Except.error.inj he]
  exact (findCrlf_eq_none _).mp h

theorem oneLine_arity : OneLine (wrongArity : Parsed α) := oneLine_reject rfl

theorem OneLine.bind {p : Parsed α} {f : α → Parsed β} (hp : OneLine p)
    (hf : ∀ a, OneLine (f a)) : OneLine (p >>= f) := by
  cases p with
  | error e => exact fun e' he' => hp e' (congrArg Except.error (Except.error.inj he'))
  | ok a => exact hf a

theorem oneLine_mapM {read : Value → Parsed α} (hread : ∀ v, OneLine (read v))
    (args : List Value) : OneLine (args.mapM read) := by
  induction args with
  | nil => exact oneLine_pure []
  | cons arg args ih =>
    rw [List.mapM_cons]
    exact (hread arg).bind fun a => ih.bind fun as => oneLine_pure (a :: as)

theorem oneLine_readPairs {read₁ : Value → Parsed α} {read₂ : Value → Parsed β}
    (h₁ : ∀ v, OneLine (read₁ v)) (h₂ : ∀ v, OneLine (read₂ v)) (args : List Value) :
    OneLine (readPairs read₁ read₂ args) := by
  induction args using readPairs.induct with
  | case1 arg₁ arg₂ args ih =>
    rw [readPairs]
    exact (h₁ arg₁).bind fun a => (h₂ arg₂).bind fun b =>
      ih.bind fun rest => oneLine_pure ((a, b) :: rest)
  | case2 args hargs =>
    rw [readPairs]
    · exact oneLine_pure []
    · exact hargs

theorem oneLine_string (v : Value) : OneLine (bulkToString v) := by
  unfold bulkToString
  split
  · exact oneLine_pure _
  · exact oneLine_reject rfl

theorem oneLine_bytes (v : Value) : OneLine (bulkToBytes v) := by
  unfold bulkToBytes
  split
  · exact oneLine_pure _
  · exact oneLine_reject rfl

theorem oneLine_u64 (v : Value) : OneLine (bulkToU64 v) := by
  have hreject : OneLine (reject "ERR value is not integer" : Parsed UInt64) :=
    oneLine_reject rfl
  unfold bulkToU64
  split
  · split
    · exact oneLine_pure _
    · exact hreject
  · split
    · exact oneLine_pure _
    · exact hreject
  · exact hreject

theorem oneLine_i64 (v : Value) : OneLine (bulkToI64 v) := by
  have hreject : OneLine (reject "ERR value is not integer" : Parsed Int64) :=
    oneLine_reject rfl
  unfold bulkToI64
  split
  · split
    · exact oneLine_pure _
    · exact hreject
  · exact oneLine_pure _
  · exact hreject

theorem oneLine_f64 (F : FloatText) (v : Value) : OneLine (bulkToF64 F v) := by
  have hreject : OneLine (reject "ERR value is not float" : Parsed F64) :=
    oneLine_reject rfl
  unfold bulkToF64
  split
  · split
    · exact oneLine_pure _
    · exact hreject
  · exact oneLine_pure _
  · exact hreject

end Parse

section Parsers

variable {α β : Type} {read : Value → Parsed α}

theorem oneLine_nullary (cmd : Command) (args : List Value) :
    OneLine (parseNullary cmd args) := by
  unfold parseNullary
  split
  · exact oneLine_pure _
  · exact oneLine_arity

theorem oneLine_key (make : Str → Command) (args : List Value) :
    OneLine (parseKey make args) := by
  unfold parseKey
  split
  · exact (oneLine_string _).bind fun _ => oneLine_pure _
  · exact oneLine_arity

theorem oneLine_keyAnd (hread : ∀ v, OneLine (read v)) (make : Str → α → Command)
    (args : List Value) : OneLine (parseKeyAnd read make args) := by
  unfold parseKeyAnd
  split
  · exact (oneLine_string _).bind fun _ => (hread _).bind fun _ => oneLine_pure _
  · exact oneLine_arity

theorem oneLine_keyAndTwo (hread : ∀ v, OneLine (read v)) (make : Str → α → α → Command)
    (args : List Value) : OneLine (parseKeyAndTwo read make args) := by
  unfold parseKeyAndTwo
  split
  · exact (oneLine_string _).bind fun _ => (hread _).bind fun _ =>
      (hread _).bind fun _ => oneLine_pure _
  · exact oneLine_arity

theorem oneLine_keys (make : List Str → Command) (args : List Value) :
    OneLine (parseKeys make args) := by
  unfold parseKeys
  split
  · exact (oneLine_mapM oneLine_string _).bind fun _ => oneLine_pure _
  · exact oneLine_arity

theorem oneLine_keyAndMany (hread : ∀ v, OneLine (read v)) (make : Str → List α → Command)
    (args : List Value) : OneLine (parseKeyAndMany read make args) := by
  unfold parseKeyAndMany
  split
  · exact (oneLine_string _).bind fun _ =>
      (oneLine_mapM hread _).bind fun _ => oneLine_pure _
  · exact oneLine_arity

theorem oneLine_keyAndPairs {read₂ : Value → Parsed β} (hread : ∀ v, OneLine (read v))
    (hread₂ : ∀ v, OneLine (read₂ v)) (make : Str → List (α × β) → Command)
    (args : List Value) : OneLine (parseKeyAndPairs read read₂ make args) := by
  unfold parseKeyAndPairs
  split
  · split
    · exact oneLine_arity
    · exact (oneLine_string _).bind fun _ =>
        (oneLine_readPairs hread hread₂ _).bind fun _ => oneLine_pure _
  · exact oneLine_arity

theorem oneLine_echo (args : List Value) : OneLine (parseEcho args) := by
  unfold parseEcho
  split
  · exact oneLine_pure _
  · exact oneLine_reject rfl
  · exact oneLine_arity

theorem oneLine_get (args : List Value) : OneLine (parseGet args) := by
  unfold parseGet
  split
  · exact (oneLine_string _).bind fun _ => oneLine_pure _
  · exact oneLine_reject rfl

theorem oneLine_setOptions (args : List Value) (px : Option UInt64) (condition : SetCondition) :
    OneLine (parseSetOptions args px condition) := by
  have hsyntax : OneLine (reject "ERR syntax error" : Parsed (Option UInt64 × SetCondition)) :=
    oneLine_reject rfl
  have hexpire : OneLine (reject "ERR invalid expire time in 'set' command" :
      Parsed (Option UInt64 × SetCondition)) := oneLine_reject rfl
  induction args using List.twoStepInduction generalizing px condition with
  | nil => exact oneLine_pure _
  | singleton arg =>
    unfold parseSetOptions
    refine (oneLine_string arg).bind fun opt => ?_
    dsimp only
    split
    · exact hsyntax
    · split
      · split
        · exact hsyntax
        · exact oneLine_pure _
      · split
        · split
          · exact hsyntax
          · exact oneLine_pure _
        · exact hsyntax
  | cons_cons opt arg args ih ihtail =>
    unfold parseSetOptions
    refine (oneLine_string opt).bind fun opt => ?_
    dsimp only
    split
    · split
      · exact hsyntax
      · refine (oneLine_u64 arg).bind fun ttl => ?_
        split
        · split
          · exact ih _ _
          · exact hexpire
        · exact ih _ _
    · split
      · split
        · exact hsyntax
        · exact ihtail _ _ _
      · split
        · split
          · exact hsyntax
          · exact ihtail _ _ _
        · exact hsyntax

theorem oneLine_set (args : List Value) : OneLine (parseSet args) := by
  unfold parseSet
  split
  · exact (oneLine_string _).bind fun _ => (oneLine_bytes _).bind fun _ =>
      (oneLine_setOptions _ _ _).bind fun _ => oneLine_pure _
  · exact oneLine_reject rfl

theorem oneLine_expire (args : List Value) : OneLine (parseExpire args) := by
  unfold parseExpire
  split
  · exact (oneLine_string _).bind fun _ => (oneLine_u64 _).bind fun _ => oneLine_pure _
  · exact oneLine_arity

theorem oneLine_mset (args : List Value) : OneLine (parseMset args) := by
  unfold parseMset
  split
  · split
    · exact oneLine_arity
    · exact (oneLine_readPairs oneLine_string oneLine_bytes _).bind fun _ => oneLine_pure _
  · exact oneLine_arity

theorem oneLine_sPop (args : List Value) : OneLine (parseSPop args) := by
  unfold parseSPop
  split
  · exact (oneLine_string _).bind fun _ => oneLine_pure _
  · exact (oneLine_string _).bind fun _ => (oneLine_u64 _).bind fun _ => oneLine_pure _
  · exact oneLine_arity

theorem parsers_oneLine (F : FloatText) :
    (parsers F).Forall fun p => ∀ args, OneLine (p.2 args) := by
  refine ⟨fun _ => oneLine_pure _, oneLine_echo, fun _ => oneLine_pure _, oneLine_get,
    oneLine_set, oneLine_keys _, oneLine_keys _, oneLine_expire, oneLine_key _, oneLine_key _,
    oneLine_key _, oneLine_key _, oneLine_keys _, oneLine_mset,
    oneLine_keyAnd oneLine_bytes _, oneLine_key _, oneLine_key _, oneLine_key _,
    fun _ => oneLine_pure _, oneLine_nullary _, oneLine_keyAndMany oneLine_bytes _,
    oneLine_keyAndMany oneLine_bytes _, oneLine_key _, oneLine_key _, oneLine_key _,
    oneLine_keyAnd oneLine_i64 _, oneLine_keyAndTwo oneLine_i64 _,
    oneLine_keyAndMany oneLine_bytes _, oneLine_keyAndMany oneLine_bytes _, oneLine_key _,
    oneLine_keyAnd oneLine_bytes _, oneLine_key _, oneLine_sPop,
    oneLine_keyAndPairs oneLine_string oneLine_bytes _, oneLine_keyAnd oneLine_string _,
    oneLine_keyAndMany oneLine_string _, oneLine_key _, oneLine_keyAnd oneLine_string _,
    oneLine_key _, oneLine_key _, oneLine_key _,
    oneLine_keyAndPairs (oneLine_f64 F) oneLine_bytes _, oneLine_keyAndTwo oneLine_i64 _,
    oneLine_keyAndTwo oneLine_i64 _, oneLine_keyAnd oneLine_bytes _,
    oneLine_keyAndMany oneLine_bytes _, oneLine_key _, oneLine_keyAndTwo (oneLine_f64 F) _⟩

/-- The reply to an unknown command. -/
def unknownCommand (b : Bytes) : Value :=
  .error (Str.lit "ERR unknown command '" ++ Str.fromUtf8Lossy (toAsciiUppercase b) ++
    Str.lit "'")

theorem tryFrom_error {F : FloatText} {args : List Value} {e : Value}
    (h : tryFrom F args = .error e) : e.NoCrlf ∨ ∃ b rest,
      args = .bulkString (some b) :: rest ∧ findParser F (toAsciiUppercase b) = none ∧
        e = unknownCommand b := by
  unfold tryFrom at h
  split at h
  · exact Or.inl (oneLine_reject (α := Command) rfl e h)
  · rename_i b rest
    split at h
    · rename_i parse hparse
      obtain ⟨p, hp, rfl⟩ := Option.map_eq_some_iff.mp hparse
      have hmem := List.mem_of_find?_eq_some hp
      exact Or.inl (List.forall_iff_forall_mem.mp (parsers_oneLine F) p hmem _ e h)
    · rename_i hnone
      exact Or.inr ⟨b, rest, rfl, hnone, (Except.error.inj h).symm⟩
  · exact Or.inl (oneLine_reject (α := Command) rfl e h)

theorem noCrlf_unknownCommand (b : Bytes) : (unknownCommand b).NoCrlf ↔ ¬ crlf <:+: b := by
  have hname : crlf <:+: Utf8.lossy (toAsciiUppercase b) ↔ crlf <:+: b :=
    (Iff.intro (Utf8.lossy_pair (by decide) (by decide) _)
      (Utf8.pair_lossy (by decide) (by decide) _)).trans
      (pair_toAsciiUppercase (by decide) (by decide) b)
  rw [← hname]
  apply not_congr
  show crlf <:+: (Str.lit "ERR unknown command '").bytes ++ Utf8.lossy (toAsciiUppercase b) ++
    (Str.lit "'").bytes ↔ _
  constructor
  · intro h
    rw [List.append_assoc] at h
    have htail := Utf8.pair_of_append (by decide) h
    rcases List.infix_append_iff.mp htail with h | h | ⟨t, u, htu, ht, hu⟩
    · exact h
    · exact absurd h.length_le (by decide)
    · -- The closing quote is no LF.
      have hlast : u = [] := by
        have hquoted : u <+: [] ++ [0x27] := hu
        rcases List.prefix_concat_iff.mp hquoted with hquote | hnil
        · rw [hquote] at htu
          exact absurd (congrArg List.getLast? htu) (by simp)
        · exact List.prefix_nil.mp hnil
      rw [hlast, List.append_nil] at htu
      rw [show crlf = t from htu]
      exact ht.isInfix
  · intro h
    exact h.trans ⟨_, _, rfl⟩

theorem findParser_crlf (F : FloatText) {b : Bytes} (h : crlf <:+: b) :
    findParser F (toAsciiUppercase b) = none := by
  have hnames : ((parsers F).all fun p => findCrlf (Str.utf8 p.1) = none) = true := rfl
  rw [findParser, Option.map_eq_none_iff, List.find?_eq_none]
  intro p hp hname
  have hnone := of_decide_eq_true (List.all_eq_true.mp hnames p hp)
  apply (findCrlf_eq_none _).mp hnone
  rw [of_decide_eq_true hname]
  exact (pair_toAsciiUppercase (by decide) (by decide) b).mpr h

end Parsers

/-! ### Replies of the handlers -/

section Handlers

theorem noCrlf_bulks (items : List Value) (h : ∀ v ∈ items, v.NoCrlf) :
    (Value.array (some items)).NoCrlf := (Value.all_array _ _).mpr ⟨trivial, h⟩

theorem noCrlf_bulkArray (items : List Bytes) : (bulkArray items).NoCrlf := by
  apply noCrlf_bulks
  intro v hv
  obtain ⟨b, -, rfl⟩ := List.mem_map.mp hv
  exact trivial

theorem noCrlf_bulkOrNull (b : Option Bytes) : (bulkOrNull b).NoCrlf := by cases b <;> trivial

theorem noCrlf_lit {s : Str} (h : findCrlf s.bytes = none) :
    (Value.simpleString s).NoCrlf ∧ (Value.error s).NoCrlf :=
  ⟨(findCrlf_eq_none _).mp h, (findCrlf_eq_none _).mp h⟩

theorem noCrlf_ok : ok.NoCrlf := (noCrlf_lit rfl).1

theorem noCrlf_typeName (type : Option StoredValue) :
    (Value.simpleString ((type.map Store.typeName).getD (Str.lit "none"))).NoCrlf := by
  cases type with
  | none => exact (noCrlf_lit rfl).1
  | some v => cases v <;> exact (noCrlf_lit rfl).1

theorem noCrlf_counterReply (delta : Int64) (v : StoredValue) :
    (counterReply (Store.addToString delta v).1).NoCrlf := by
  unfold Store.addToString
  split
  · split
    · exact (noCrlf_lit rfl).2
    · split
      · exact (noCrlf_lit rfl).2
      · split
        · exact (noCrlf_lit rfl).2
        · trivial
  · exact (noCrlf_lit rfl).2

theorem returns_withType {q : Value → Prop} (hwrong : q wrongType) (key : Str)
    (expected : String) {body : StoreM Value} (hbody : body.Returns q) :
    (withType key expected body).Returns q := by
  have hcheck : (ensureType key (Str.lit expected)).Returns fun err =>
      ∀ v, err = some v → q v := by
    apply Returns.last
    intro type
    cases type with
    | none => exact returns_pure nofun
    | some actual =>
      apply returns_pure
      intro v hv
      split at hv
      · rw [← Option.some.inj hv]
        exact hwrong
      · cases hv
  apply hcheck.bind
  intro err herr
  cases err with
  | none => exact hbody
  | some v => exact returns_pure (herr v rfl)

theorem returns_counter (key : Str) (delta : Int64) :
    (Store.adjustCounter key delta >>= fun r => (return counterReply r : StoreM Value)).Returns
      Value.NoCrlf := by
  have hupsert : (Store.adjustCounter key delta).Returns fun r => (counterReply r).NoCrlf :=
    Returns.last fun _ => Returns.last fun old => returns_pure (noCrlf_counterReply delta _)
  exact hupsert.bind fun r hr => returns_pure hr

variable (F : FloatText) (ord : IterOrder) (info : Bytes)

theorem returns_execute (cmd : Command) : (cmd.execute F ord info).Returns Value.NoCrlf := by
  have hwrong : wrongType.NoCrlf := (noCrlf_lit rfl).2
  -- A handler behind the type check, whose reply is made from one result.
  have htyped : ∀ {α : Type} (key : Str) (expected : String) {m : StoreM α} {reply : α → Value},
      (∀ a, (reply a).NoCrlf) →
      (withType key expected (m >>= fun a => pure (reply a))).Returns Value.NoCrlf :=
    fun key expected _ _ hreply => returns_withType hwrong key expected
      (.last fun a => returns_pure (hreply a))
  cases cmd with
  | ping => exact returns_pure (noCrlf_lit rfl).1
  | echo msg => exact returns_pure trivial
  | quit => exact returns_pure noCrlf_ok
  | info => exact returns_pure trivial
  | get k => exact htyped k "string" noCrlf_bulkOrNull
  | set k v px condition =>
    apply Returns.last
    intro present
    split
    · exact returns_pure trivial
    · split
      · exact returns_pure trivial
      · exact .last fun _ => returns_pure noCrlf_ok
  | del ks => exact .last fun _ => returns_pure trivial
  | «exists» ks => exact .last fun _ => returns_pure trivial
  | expire k ms => exact .last fun found => by cases found <;> exact returns_pure trivial
  | ttl k => exact .last fun _ => returns_pure trivial
  | pttl k => exact .last fun _ => returns_pure trivial
  | incr k => exact returns_counter k 1
  | decr k => exact returns_counter k (-1)
  | mGet ks =>
    have hitems : (ks.mapM fun key => do return bulkOrNull (← Store.get key) :
        StoreM (List Value)).Returns fun items => ∀ v ∈ items, v.NoCrlf :=
      Returns.mapM fun key _ => .last fun b => returns_pure (noCrlf_bulkOrNull b)
    exact hitems.bind fun items h => returns_pure (noCrlf_bulks items h)
  | mSet entries => exact .last fun _ => returns_pure noCrlf_ok
  | append k v => exact htyped k "string" fun _ => trivial
  | strLen k => exact htyped k "string" fun _ => trivial
  | type k =>
    have htype : (Store.typeOf k).Returns fun t =>
        (Value.simpleString (t.getD (Str.lit "none"))).NoCrlf :=
      .last fun v => returns_pure (noCrlf_typeName v)
    exact htype.bind fun t ht => returns_pure ht
  | keys pattern =>
    show (handleKeys ord pattern).Returns Value.NoCrlf
    unfold handleKeys
    split
    · exact returns_pure (noCrlf_lit rfl).2
    · exact .last fun _ => returns_pure (noCrlf_bulkArray _)
  | flushAll => exact .last fun _ => returns_pure noCrlf_ok
  | lPush k vals =>
    apply returns_withType hwrong k "list"
    split
    · exact returns_pure trivial
    · exact .last fun _ => returns_pure trivial
  | rPush k vals =>
    apply returns_withType hwrong k "list"
    split
    · exact returns_pure trivial
    · exact .last fun _ => returns_pure trivial
  | lPop k => exact htyped k "list" noCrlf_bulkOrNull
  | rPop k => exact htyped k "list" noCrlf_bulkOrNull
  | lLen k => exact htyped k "list" fun _ => trivial
  | lIndex k idx => exact htyped k "list" noCrlf_bulkOrNull
  | lRange k start stop => exact htyped k "list" noCrlf_bulkArray
  | sAdd k members => exact htyped k "set" fun _ => trivial
  | sRem k members => exact htyped k "set" fun _ => trivial
  | sMembers k => exact htyped k "set" fun _ => noCrlf_bulkArray _
  | sIsMember k member => exact htyped k "set" fun _ => trivial
  | sCard k => exact htyped k "set" fun _ => trivial
  | sPop k n =>
    cases n with
    | none => exact htyped k "set" fun popped => noCrlf_bulkOrNull popped.getLast?
    | some n => exact htyped k "set" noCrlf_bulkArray
  | hSet k fields => exact htyped k "hash" fun _ => trivial
  | hGet k field => exact htyped k "hash" noCrlf_bulkOrNull
  | hDel k fields => exact htyped k "hash" fun _ => trivial
  | hLen k => exact htyped k "hash" fun _ => trivial
  | hExists k field => exact htyped k "hash" fun _ => trivial
  | hKeys k => exact htyped k "hash" fun _ => noCrlf_bulkArray _
  | hVals k => exact htyped k "hash" noCrlf_bulkArray
  | hGetAll k => exact htyped k "hash" fun _ => noCrlf_bulkArray _
  | zAdd k entries => exact htyped k "zset" fun _ => trivial
  | zRange k start stop => exact htyped k "zset" fun _ => noCrlf_bulkArray _
  | zRevRange k start stop => exact htyped k "zset" fun _ => noCrlf_bulkArray _
  | zScore k member => exact htyped k "zset" fun _ => noCrlf_bulkOrNull _
  | zRem k members => exact htyped k "zset" fun _ => trivial
  | zCard k => exact htyped k "zset" fun _ => trivial
  | zCount k minScore maxScore => exact htyped k "zset" fun _ => trivial

end Handlers

end FireRedis
