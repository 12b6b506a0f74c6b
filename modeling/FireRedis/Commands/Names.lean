import FireRedis.Commands.Transparent

/-!
# Names of commands

Every parser of the table builds the command its name says, so the name of a
parsed request tells what the command may do.
-/

namespace FireRedis

namespace Command

def name : Command → String
  | .ping => "PING" | .echo _ => "ECHO" | .quit => "QUIT" | .info => "INFO"
  | .get _ => "GET" | .set .. => "SET" | .del _ => "DEL" | .exists _ => "EXISTS"
  | .expire .. => "EXPIRE" | .ttl _ => "TTL" | .pttl _ => "PTTL" | .incr _ => "INCR"
  | .decr _ => "DECR" | .mGet _ => "MGET" | .mSet _ => "MSET" | .append .. => "APPEND"
  | .strLen _ => "STRLEN" | .type _ => "TYPE" | .keys _ => "KEYS" | .flushAll => "FLUSHALL"
  | .lPush .. => "LPUSH" | .rPush .. => "RPUSH" | .lPop _ => "LPOP" | .rPop _ => "RPOP"
  | .lLen _ => "LLEN" | .lIndex .. => "LINDEX" | .lRange .. => "LRANGE" | .sAdd .. => "SADD"
  | .sRem .. => "SREM" | .sMembers _ => "SMEMBERS" | .sIsMember .. => "SISMEMBER"
  | .sCard _ => "SCARD" | .sPop .. => "SPOP" | .hSet .. => "HSET" | .hGet .. => "HGET"
  | .hDel .. => "HDEL" | .hLen _ => "HLEN" | .hExists .. => "HEXISTS" | .hKeys _ => "HKEYS"
  | .hVals _ => "HVALS" | .hGetAll _ => "HGETALL" | .zAdd .. => "ZADD" | .zRange .. => "ZRANGE"
  | .zRevRange .. => "ZREVRANGE" | .zScore .. => "ZSCORE" | .zRem .. => "ZREM"
  | .zCard _ => "ZCARD" | .zCount .. => "ZCOUNT"

end Command

/-! ### What an accepted request looks like -/

theorem bind_eq_ok {α β : Type} {x : Parsed α} {f : α → Parsed β} {b : β} (h : x >>= f = .ok b) :
    ∃ a, x = .ok a ∧ f a = .ok b := by
  cases x with
  | error e => cases h
  | ok a => exact ⟨a, rfl, h⟩

section Accepted

variable {α β : Type} {read : Value → Parsed α} {args : List Value} {cmd : Command}

theorem parseNullary_ok {built : Command} (h : parseNullary built args = .ok cmd) :
    cmd = built := by
  unfold parseNullary at h
  split at h
  · exact (Except.ok.inj h).symm
  · cases h

theorem parseKey_ok {make : Str → Command} (h : parseKey make args = .ok cmd) :
    ∃ name key k, args = [name, key] ∧ bulkToString key = .ok k ∧ cmd = make k := by
  unfold parseKey at h
  split at h
  · obtain ⟨k, hk, hmake⟩ := bind_eq_ok h
    exact ⟨_, _, k, rfl, hk, (Except.ok.inj hmake).symm⟩
  · cases h

theorem parseKeyAnd_ok {make : Str → α → Command} (h : parseKeyAnd read make args = .ok cmd) :
    ∃ name key arg k a, args = [name, key, arg] ∧ bulkToString key = .ok k ∧ read arg = .ok a ∧
      cmd = make k a := by
  unfold parseKeyAnd at h
  split at h
  · obtain ⟨k, hk, hrest⟩ := bind_eq_ok h
    obtain ⟨a, ha, hmake⟩ := bind_eq_ok hrest
    exact ⟨_, _, _, k, a, rfl, hk, ha, (Except.ok.inj hmake).symm⟩
  · cases h

theorem parseKeyAndTwo_ok {make : Str → α → α → Command}
    (h : parseKeyAndTwo read make args = .ok cmd) :
    ∃ name key arg₁ arg₂ k a₁ a₂, args = [name, key, arg₁, arg₂] ∧ bulkToString key = .ok k ∧
      read arg₁ = .ok a₁ ∧ read arg₂ = .ok a₂ ∧ cmd = make k a₁ a₂ := by
  unfold parseKeyAndTwo at h
  split at h
  · obtain ⟨k, hk, hrest⟩ := bind_eq_ok h
    obtain ⟨a₁, ha₁, hrest⟩ := bind_eq_ok hrest
    obtain ⟨a₂, ha₂, hmake⟩ := bind_eq_ok hrest
    exact ⟨_, _, _, _, k, a₁, a₂, rfl, hk, ha₁, ha₂, (Except.ok.inj hmake).symm⟩
  · cases h

theorem parseKeys_ok {make : List Str → Command} (h : parseKeys make args = .ok cmd) :
    ∃ name keys ks, args = name :: keys ∧ keys.mapM bulkToString = .ok ks ∧ cmd = make ks := by
  unfold parseKeys at h
  split at h
  · obtain ⟨ks, hks, hmake⟩ := bind_eq_ok h
    exact ⟨_, _, ks, rfl, hks, (Except.ok.inj hmake).symm⟩
  · cases h

theorem mapM_ne_nil {arg : Value} {args : List Value} {as : List α}
    (h : (arg :: args).mapM read = .ok as) : as ≠ [] := by
  rw [List.mapM_cons] at h
  obtain ⟨a, -, ha⟩ := bind_eq_ok h
  obtain ⟨rest, -, hrest⟩ := bind_eq_ok ha
  rw [← Except.ok.inj hrest]
  simp

theorem parseKeyAndMany_ok {make : Str → List α → Command}
    (h : parseKeyAndMany read make args = .ok cmd) :
    ∃ name key rest k as, args = name :: key :: rest ∧ bulkToString key = .ok k ∧
      rest.mapM read = .ok as ∧ as ≠ [] ∧ cmd = make k as := by
  unfold parseKeyAndMany at h
  split at h
  · obtain ⟨k, hk, hrest⟩ := bind_eq_ok h
    obtain ⟨as, has, hmake⟩ := bind_eq_ok hrest
    exact ⟨_, _, _, k, as, rfl, hk, has, mapM_ne_nil has, (Except.ok.inj hmake).symm⟩
  · cases h

theorem parseKeyAndPairs_ok {read₂ : Value → Parsed β} {make : Str → List (α × β) → Command}
    (h : parseKeyAndPairs read read₂ make args = .ok cmd) :
    ∃ name key rest k ps, args = name :: key :: rest ∧ bulkToString key = .ok k ∧
      readPairs read read₂ rest = .ok ps ∧ cmd = make k ps := by
  unfold parseKeyAndPairs at h
  split at h
  · split at h
    · cases h
    · obtain ⟨k, hk, hrest⟩ := bind_eq_ok h
      obtain ⟨ps, hps, hmake⟩ := bind_eq_ok hrest
      exact ⟨_, _, _, k, ps, rfl, hk, hps, (Except.ok.inj hmake).symm⟩
  · cases h

theorem parseEcho_ok (h : parseEcho args = .ok cmd) : ∃ b, cmd = .echo b := by
  unfold parseEcho at h
  split at h
  · exact ⟨_, (Except.ok.inj h).symm⟩
  · cases h
  · cases h

theorem parseGet_ok (h : parseGet args = .ok cmd) :
    ∃ name key k, args = [name, key] ∧ bulkToString key = .ok k ∧ cmd = .get k := by
  unfold parseGet at h
  split at h
  · obtain ⟨k, hk, hmake⟩ := bind_eq_ok h
    exact ⟨_, _, k, rfl, hk, (Except.ok.inj hmake).symm⟩
  · cases h

theorem parseSet_ok (h : parseSet args = .ok cmd) :
    ∃ name key val opts k v o, args = name :: key :: val :: opts ∧ bulkToString key = .ok k ∧
      bulkToBytes val = .ok v ∧ parseSetOptions opts none .none = .ok o ∧
        cmd = .set k v o.1 o.2 := by
  unfold parseSet at h
  split at h
  · obtain ⟨k, hk, hrest⟩ := bind_eq_ok h
    obtain ⟨v, hv, hrest⟩ := bind_eq_ok hrest
    obtain ⟨o, ho, hmake⟩ := bind_eq_ok hrest
    exact ⟨_, _, _, _, k, v, o, rfl, hk, hv, ho, (Except.ok.inj hmake).symm⟩
  · cases h

theorem parseExpire_ok (h : parseExpire args = .ok cmd) :
    ∃ name key secs k n, args = [name, key, secs] ∧ bulkToString key = .ok k ∧
      bulkToU64 secs = .ok n ∧ cmd = .expire k (n * 1000) := by
  unfold parseExpire at h
  split at h
  · obtain ⟨k, hk, hrest⟩ := bind_eq_ok h
    obtain ⟨n, hn, hmake⟩ := bind_eq_ok hrest
    exact ⟨_, _, _, k, n, rfl, hk, hn, (Except.ok.inj hmake).symm⟩
  · cases h

theorem parseMset_ok (h : parseMset args = .ok cmd) :
    ∃ name rest entries, args = name :: rest ∧
      readPairs bulkToString bulkToBytes rest = .ok entries ∧ cmd = .mSet entries := by
  unfold parseMset at h
  split at h
  · split at h
    · cases h
    · obtain ⟨entries, hentries, hmake⟩ := bind_eq_ok h
      exact ⟨_, _, entries, rfl, hentries, (Except.ok.inj hmake).symm⟩
  · cases h

theorem parseSPop_ok (h : parseSPop args = .ok cmd) :
    ∃ name key rest k count, args = name :: key :: rest ∧ bulkToString key = .ok k ∧
      cmd = .sPop k count := by
  unfold parseSPop at h
  split at h
  · obtain ⟨k, hk, hmake⟩ := bind_eq_ok h
    exact ⟨_, _, _, k, _, rfl, hk, (Except.ok.inj hmake).symm⟩
  · obtain ⟨k, hk, hrest⟩ := bind_eq_ok h
    obtain ⟨n, -, hmake⟩ := bind_eq_ok hrest
    exact ⟨_, _, _, k, _, rfl, hk, (Except.ok.inj hmake).symm⟩
  · cases h

end Accepted

/-! ### What a parser builds -/

/-- Whatever the parser builds satisfies `Q`. -/
def Builds (parse : ArgParser) (Q : Command → Prop) : Prop :=
  ∀ args cmd, parse args = .ok cmd → Q cmd

section Shapes

variable {Q : Command → Prop} {α β : Type}

theorem builds_const {cmd : Command} (h : Q cmd) : Builds (fun _ => return cmd) Q := by
  intro args c hc
  rw [← Except.ok.inj hc]
  exact h

theorem builds_nullary {cmd : Command} (h : Q cmd) : Builds (parseNullary cmd) Q := by
  intro args c hc
  rw [parseNullary_ok hc]
  exact h

theorem builds_key {make : Str → Command} (h : ∀ k, Q (make k)) : Builds (parseKey make) Q := by
  intro args c hc
  obtain ⟨-, -, k, -, -, rfl⟩ := parseKey_ok hc
  exact h k

theorem builds_keyAnd {read : Value → Parsed α} {make : Str → α → Command}
    (h : ∀ k a, Q (make k a)) : Builds (parseKeyAnd read make) Q := by
  intro args c hc
  obtain ⟨-, -, -, k, a, -, -, -, rfl⟩ := parseKeyAnd_ok hc
  exact h k a

theorem builds_keyAndTwo {read : Value → Parsed α} {make : Str → α → α → Command}
    (h : ∀ k a b, Q (make k a b)) : Builds (parseKeyAndTwo read make) Q := by
  intro args c hc
  obtain ⟨-, -, -, -, k, a, b, -, -, -, -, rfl⟩ := parseKeyAndTwo_ok hc
  exact h k a b

theorem builds_keys {make : List Str → Command} (h : ∀ ks, Q (make ks)) :
    Builds (parseKeys make) Q := by
  intro args c hc
  obtain ⟨-, -, ks, -, -, rfl⟩ := parseKeys_ok hc
  exact h ks

theorem builds_keyAndMany {read : Value → Parsed α} {make : Str → List α → Command}
    (h : ∀ k as, as ≠ [] → Q (make k as)) : Builds (parseKeyAndMany read make) Q := by
  intro args c hc
  obtain ⟨-, -, -, k, as, -, -, -, hne, rfl⟩ := parseKeyAndMany_ok hc
  exact h k as hne

theorem builds_keyAndPairs {read₁ : Value → Parsed α} {read₂ : Value → Parsed β}
    {make : Str → List (α × β) → Command} (h : ∀ k ps, Q (make k ps)) :
    Builds (parseKeyAndPairs read₁ read₂ make) Q := by
  intro args c hc
  obtain ⟨-, -, -, k, ps, -, -, -, rfl⟩ := parseKeyAndPairs_ok hc
  exact h k ps

end Shapes

/-- What parsing promises of a command: its name, and members for SADD. -/
def Named (name : String) (cmd : Command) : Prop :=
  cmd.name = name ∧ ∀ k, cmd ≠ .sAdd k []

theorem builds_echo : Builds parseEcho (Named "ECHO") := by
  intro args c hc
  obtain ⟨b, rfl⟩ := parseEcho_ok hc
  exact ⟨rfl, by simp⟩

theorem builds_get : Builds parseGet (Named "GET") := by
  intro args c hc
  obtain ⟨-, -, k, -, -, rfl⟩ := parseGet_ok hc
  exact ⟨rfl, by simp⟩

theorem builds_set : Builds parseSet (Named "SET") := by
  intro args c hc
  obtain ⟨-, -, -, -, k, v, o, -, -, -, -, rfl⟩ := parseSet_ok hc
  exact ⟨rfl, by simp⟩

theorem builds_expire : Builds parseExpire (Named "EXPIRE") := by
  intro args c hc
  obtain ⟨-, -, -, k, n, -, -, -, rfl⟩ := parseExpire_ok hc
  exact ⟨rfl, by simp⟩

theorem builds_mset : Builds parseMset (Named "MSET") := by
  intro args c hc
  obtain ⟨-, -, entries, -, -, rfl⟩ := parseMset_ok hc
  exact ⟨rfl, by simp⟩

theorem builds_sPop : Builds parseSPop (Named "SPOP") := by
  intro args c hc
  obtain ⟨-, -, -, k, count, -, -, rfl⟩ := parseSPop_ok hc
  exact ⟨rfl, by simp⟩

theorem parsers_named (F : FloatText) :
    (parsers F).Forall fun p => Builds p.2 (Named p.1) := by
  refine ⟨builds_const ⟨rfl, by simp⟩, builds_echo, builds_const ⟨rfl, by simp⟩, builds_get,
    builds_set, builds_keys fun _ => ⟨rfl, by simp⟩, builds_keys fun _ => ⟨rfl, by simp⟩,
    builds_expire, builds_key fun _ => ⟨rfl, by simp⟩, builds_key fun _ => ⟨rfl, by simp⟩,
    builds_key fun _ => ⟨rfl, by simp⟩, builds_key fun _ => ⟨rfl, by simp⟩,
    builds_keys fun _ => ⟨rfl, by simp⟩, builds_mset, builds_keyAnd fun _ _ => ⟨rfl, by simp⟩,
    builds_key fun _ => ⟨rfl, by simp⟩, builds_key fun _ => ⟨rfl, by simp⟩,
    builds_key fun _ => ⟨rfl, by simp⟩, builds_const ⟨rfl, by simp⟩,
    builds_nullary ⟨rfl, by simp⟩, builds_keyAndMany fun _ _ _ => ⟨rfl, by simp⟩,
    builds_keyAndMany fun _ _ _ => ⟨rfl, by simp⟩, builds_key fun _ => ⟨rfl, by simp⟩,
    builds_key fun _ => ⟨rfl, by simp⟩, builds_key fun _ => ⟨rfl, by simp⟩,
    builds_keyAnd fun _ _ => ⟨rfl, by simp⟩, builds_keyAndTwo fun _ _ _ => ⟨rfl, by simp⟩,
    builds_keyAndMany fun _ _ h => ⟨rfl, by simp [h]⟩,
    builds_keyAndMany fun _ _ _ => ⟨rfl, by simp⟩, builds_key fun _ => ⟨rfl, by simp⟩,
    builds_keyAnd fun _ _ => ⟨rfl, by simp⟩, builds_key fun _ => ⟨rfl, by simp⟩, builds_sPop,
    builds_keyAndPairs fun _ _ => ⟨rfl, by simp⟩, builds_keyAnd fun _ _ => ⟨rfl, by simp⟩,
    builds_keyAndMany fun _ _ _ => ⟨rfl, by simp⟩, builds_key fun _ => ⟨rfl, by simp⟩,
    builds_keyAnd fun _ _ => ⟨rfl, by simp⟩, builds_key fun _ => ⟨rfl, by simp⟩,
    builds_key fun _ => ⟨rfl, by simp⟩, builds_key fun _ => ⟨rfl, by simp⟩,
    builds_keyAndPairs fun _ _ => ⟨rfl, by simp⟩, builds_keyAndTwo fun _ _ _ => ⟨rfl, by simp⟩,
    builds_keyAndTwo fun _ _ _ => ⟨rfl, by simp⟩, builds_keyAnd fun _ _ => ⟨rfl, by simp⟩,
    builds_keyAndMany fun _ _ _ => ⟨rfl, by simp⟩, builds_key fun _ => ⟨rfl, by simp⟩,
    builds_keyAndTwo fun _ _ _ => ⟨rfl, by simp⟩⟩

/-- A parsed request spells its command's name in some letter case. -/
theorem tryFrom_named {F : FloatText} {args : List Value} {cmd : Command}
    (h : tryFrom F args = .ok cmd) : (∀ k, cmd ≠ .sAdd k []) ∧
      ∃ b rest, args = .bulkString (some b) :: rest ∧
        toAsciiUppercase b = Str.utf8 cmd.name := by
  unfold tryFrom at h
  split at h
  · cases h
  · rename_i b rest
    split at h
    · rename_i parse hparse
      obtain ⟨p, hp, rfl⟩ := Option.map_eq_some_iff.mp hparse
      have hmem := List.mem_of_find?_eq_some hp
      have hname := List.find?_some hp
      obtain ⟨hcmd, hadd⟩ := List.forall_iff_forall_mem.mp (parsers_named F) p hmem _ _ h
      exact ⟨hadd, b, rest, rfl, by rw [hcmd]; exact (of_decide_eq_true hname).symm⟩
    · cases h
  · cases h

end FireRedis
