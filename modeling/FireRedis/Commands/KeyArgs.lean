import FireRedis.Commands.Independent
import FireRedis.Commands.Names

/-!
# Key arguments

Where a request carries its keys. The keys of a parsed command are these
arguments, decoded one by one, so a request reaches no key but those that its
key arguments decode to.
-/

namespace FireRedis

/-- The first of every two arguments. -/
def pairKeys : List Value → List Value
  | key :: _ :: args => key :: pairKeys args
  | _ => []

/-- The arguments of a request for the command that are keys. -/
def Command.keyArgs : Command → List Value → List Value
  | .ping, _ | .echo _, _ | .quit, _ | .info, _ | .keys _, _ | .flushAll, _ => []
  | .del _, args | .exists _, args | .mGet _, args => args.tail
  | .mSet _, args => pairKeys args.tail
  | _, args => args.tail.take 1

/-! ### The keys that a parser reads -/

/-- The keys of what the parser builds are its key arguments, decoded. -/
def ReadsKeys (parse : ArgParser) : Prop :=
  ∀ args cmd, parse args = .ok cmd → (cmd.keyArgs args).mapM bulkToString = .ok cmd.keyList

def Keyless (cmd : Command) : Prop := cmd.keyList = [] ∧ ∀ args, cmd.keyArgs args = []

/-- The command works on one key, its first argument. -/
def Single (cmd : Command) (key : Str) : Prop :=
  cmd.keyList = [key] ∧ ∀ args, cmd.keyArgs args = args.tail.take 1

section Shapes

variable {α β : Type}

theorem Builds.readsKeys {parse : ArgParser} (h : Builds parse Keyless) : ReadsKeys parse := by
  intro args cmd hcmd
  obtain ⟨hlist, hargs⟩ := h args cmd hcmd
  rw [hargs, hlist]
  rfl

theorem Single.readsKeys {cmd : Command} {key : Str} (h : Single cmd key) {name arg : Value}
    {args : List Value} (hkey : bulkToString arg = .ok key) :
    (cmd.keyArgs (name :: arg :: args)).mapM bulkToString = .ok cmd.keyList := by
  rw [h.1, h.2]
  show [arg].mapM bulkToString = .ok [key]
  rw [List.mapM_cons, hkey]
  rfl

theorem readsKeys_key {make : Str → Command} (h : ∀ k, Single (make k) k) :
    ReadsKeys (parseKey make) := by
  intro args cmd hcmd
  obtain ⟨name, key, k, rfl, hk, rfl⟩ := parseKey_ok hcmd
  exact (h k).readsKeys hk

theorem readsKeys_keyAnd {read : Value → Parsed α} {make : Str → α → Command}
    (h : ∀ k a, Single (make k a) k) : ReadsKeys (parseKeyAnd read make) := by
  intro args cmd hcmd
  obtain ⟨name, key, arg, k, a, rfl, hk, -, rfl⟩ := parseKeyAnd_ok hcmd
  exact (h k a).readsKeys hk

theorem readsKeys_keyAndTwo {read : Value → Parsed α} {make : Str → α → α → Command}
    (h : ∀ k a b, Single (make k a b) k) : ReadsKeys (parseKeyAndTwo read make) := by
  intro args cmd hcmd
  obtain ⟨name, key, arg₁, arg₂, k, a, b, rfl, hk, -, -, rfl⟩ := parseKeyAndTwo_ok hcmd
  exact (h k a b).readsKeys hk

theorem readsKeys_keyAndMany {read : Value → Parsed α} {make : Str → List α → Command}
    (h : ∀ k as, Single (make k as) k) : ReadsKeys (parseKeyAndMany read make) := by
  intro args cmd hcmd
  obtain ⟨name, key, rest, k, as, rfl, hk, -, -, rfl⟩ := parseKeyAndMany_ok hcmd
  exact (h k as).readsKeys hk

theorem readsKeys_keyAndPairs {read₁ : Value → Parsed α} {read₂ : Value → Parsed β}
    {make : Str → List (α × β) → Command} (h : ∀ k ps, Single (make k ps) k) :
    ReadsKeys (parseKeyAndPairs read₁ read₂ make) := by
  intro args cmd hcmd
  obtain ⟨name, key, rest, k, ps, rfl, hk, -, rfl⟩ := parseKeyAndPairs_ok hcmd
  exact (h k ps).readsKeys hk

theorem readsKeys_keys {make : List Str → Command}
    (h : ∀ ks, (make ks).keyList = ks ∧ ∀ args, (make ks).keyArgs args = args.tail) :
    ReadsKeys (parseKeys make) := by
  intro args cmd hcmd
  obtain ⟨name, keys, ks, rfl, hks, rfl⟩ := parseKeys_ok hcmd
  rw [(h ks).1, (h ks).2]
  exact hks

end Shapes

theorem readsKeys_get : ReadsKeys parseGet := by
  intro args cmd hcmd
  obtain ⟨name, key, k, rfl, hk, rfl⟩ := parseGet_ok hcmd
  exact Single.readsKeys ⟨rfl, fun _ => rfl⟩ hk

theorem readsKeys_set : ReadsKeys parseSet := by
  intro args cmd hcmd
  obtain ⟨name, key, val, opts, k, v, o, rfl, hk, -, -, rfl⟩ := parseSet_ok hcmd
  exact Single.readsKeys ⟨rfl, fun _ => rfl⟩ hk

theorem readsKeys_expire : ReadsKeys parseExpire := by
  intro args cmd hcmd
  obtain ⟨name, key, secs, k, n, rfl, hk, -, rfl⟩ := parseExpire_ok hcmd
  exact Single.readsKeys ⟨rfl, fun _ => rfl⟩ hk

theorem readsKeys_sPop : ReadsKeys parseSPop := by
  intro args cmd hcmd
  obtain ⟨name, key, rest, k, count, rfl, hk, rfl⟩ := parseSPop_ok hcmd
  exact Single.readsKeys ⟨rfl, fun _ => rfl⟩ hk

theorem mapM_pairKeys {args : List Value} {entries : List (Str × Bytes)}
    (h : readPairs bulkToString bulkToBytes args = .ok entries) :
    (pairKeys args).mapM bulkToString = .ok (entries.map Prod.fst) := by
  induction args using pairKeys.induct generalizing entries with
  | case1 key value args ih =>
    obtain ⟨k, hk, hrest⟩ := bind_eq_ok h
    obtain ⟨v, -, hrest⟩ := bind_eq_ok hrest
    obtain ⟨entries, hentries, hmake⟩ := bind_eq_ok hrest
    rw [← Except.ok.inj hmake, pairKeys, List.mapM_cons, hk, ih hentries]
    rfl
  | case2 args hargs =>
    have hnil : readPairs bulkToString bulkToBytes args = .ok [] := by
      unfold readPairs
      split
      · exact absurd rfl (hargs _ _ _)
      · rfl
    rw [← Except.ok.inj (hnil.symm.trans h)]
    unfold pairKeys
    split
    · exact absurd rfl (hargs _ _ _)
    · rfl

theorem readsKeys_mset : ReadsKeys parseMset := by
  intro args cmd hcmd
  obtain ⟨name, rest, entries, rfl, hentries, rfl⟩ := parseMset_ok hcmd
  exact mapM_pairKeys hentries

theorem readsKeys_echo : ReadsKeys parseEcho := by
  intro args cmd hcmd
  obtain ⟨b, rfl⟩ := parseEcho_ok hcmd
  rfl

theorem parsers_readsKeys (F : FloatText) : (parsers F).Forall fun p => ReadsKeys p.2 := by
  refine ⟨(builds_const ⟨rfl, fun _ => rfl⟩).readsKeys, readsKeys_echo,
    (builds_const ⟨rfl, fun _ => rfl⟩).readsKeys, readsKeys_get, readsKeys_set,
    readsKeys_keys fun _ => ⟨rfl, fun _ => rfl⟩, readsKeys_keys fun _ => ⟨rfl, fun _ => rfl⟩,
    readsKeys_expire, readsKeys_key fun _ => ⟨rfl, fun _ => rfl⟩,
    readsKeys_key fun _ => ⟨rfl, fun _ => rfl⟩, readsKeys_key fun _ => ⟨rfl, fun _ => rfl⟩,
    readsKeys_key fun _ => ⟨rfl, fun _ => rfl⟩, readsKeys_keys fun _ => ⟨rfl, fun _ => rfl⟩,
    readsKeys_mset, readsKeys_keyAnd fun _ _ => ⟨rfl, fun _ => rfl⟩,
    readsKeys_key fun _ => ⟨rfl, fun _ => rfl⟩, readsKeys_key fun _ => ⟨rfl, fun _ => rfl⟩,
    (builds_key fun _ => ⟨rfl, fun _ => rfl⟩).readsKeys,
    (builds_const ⟨rfl, fun _ => rfl⟩).readsKeys, (builds_nullary ⟨rfl, fun _ => rfl⟩).readsKeys,
    readsKeys_keyAndMany fun _ _ => ⟨rfl, fun _ => rfl⟩,
    readsKeys_keyAndMany fun _ _ => ⟨rfl, fun _ => rfl⟩,
    readsKeys_key fun _ => ⟨rfl, fun _ => rfl⟩, readsKeys_key fun _ => ⟨rfl, fun _ => rfl⟩,
    readsKeys_key fun _ => ⟨rfl, fun _ => rfl⟩, readsKeys_keyAnd fun _ _ => ⟨rfl, fun _ => rfl⟩,
    readsKeys_keyAndTwo fun _ _ _ => ⟨rfl, fun _ => rfl⟩,
    readsKeys_keyAndMany fun _ _ => ⟨rfl, fun _ => rfl⟩,
    readsKeys_keyAndMany fun _ _ => ⟨rfl, fun _ => rfl⟩,
    readsKeys_key fun _ => ⟨rfl, fun _ => rfl⟩, readsKeys_keyAnd fun _ _ => ⟨rfl, fun _ => rfl⟩,
    readsKeys_key fun _ => ⟨rfl, fun _ => rfl⟩, readsKeys_sPop,
    readsKeys_keyAndPairs fun _ _ => ⟨rfl, fun _ => rfl⟩,
    readsKeys_keyAnd fun _ _ => ⟨rfl, fun _ => rfl⟩,
    readsKeys_keyAndMany fun _ _ => ⟨rfl, fun _ => rfl⟩,
    readsKeys_key fun _ => ⟨rfl, fun _ => rfl⟩, readsKeys_keyAnd fun _ _ => ⟨rfl, fun _ => rfl⟩,
    readsKeys_key fun _ => ⟨rfl, fun _ => rfl⟩, readsKeys_key fun _ => ⟨rfl, fun _ => rfl⟩,
    readsKeys_key fun _ => ⟨rfl, fun _ => rfl⟩,
    readsKeys_keyAndPairs fun _ _ => ⟨rfl, fun _ => rfl⟩,
    readsKeys_keyAndTwo fun _ _ _ => ⟨rfl, fun _ => rfl⟩,
    readsKeys_keyAndTwo fun _ _ _ => ⟨rfl, fun _ => rfl⟩,
    readsKeys_keyAnd fun _ _ => ⟨rfl, fun _ => rfl⟩,
    readsKeys_keyAndMany fun _ _ => ⟨rfl, fun _ => rfl⟩,
    readsKeys_key fun _ => ⟨rfl, fun _ => rfl⟩,
    readsKeys_keyAndTwo fun _ _ _ => ⟨rfl, fun _ => rfl⟩⟩

theorem tryFrom_keys {F : FloatText} {args : List Value} {cmd : Command}
    (h : tryFrom F args = .ok cmd) : (cmd.keyArgs args).mapM bulkToString = .ok cmd.keyList := by
  unfold tryFrom at h
  split at h
  · cases h
  · split at h
    · rename_i parse hparse
      obtain ⟨p, hp, rfl⟩ := Option.map_eq_some_iff.mp hparse
      have hmem := List.mem_of_find?_eq_some hp
      exact List.forall_iff_forall_mem.mp (parsers_readsKeys F) p hmem _ _ h
    · cases h
  · cases h

theorem mapM_decodes {args : List Value} {keys : List Str} {b : Bytes}
    (h : args.mapM bulkToString = .ok keys) (hargs : ∀ arg ∈ args, arg = .bulkString (some b)) :
    ∀ key ∈ keys, key = Str.fromUtf8Lossy b := by
  induction args generalizing keys with
  | nil =>
    rw [← Except.ok.inj h]
    exact fun key hkey => absurd hkey List.not_mem_nil
  | cons arg args ih =>
    rw [List.mapM_cons] at h
    obtain ⟨k, hk, hrest⟩ := bind_eq_ok h
    obtain ⟨keys, hkeys, hmake⟩ := bind_eq_ok hrest
    rw [← Except.ok.inj hmake]
    intro key hkey
    rcases List.mem_cons.mp hkey with rfl | hkey
    · rw [hargs arg (List.mem_cons_self ..)] at hk
      exact (Except.ok.inj hk).symm
    · exact ih hkeys (fun a ha => hargs a (List.mem_cons_of_mem _ ha)) key hkey

/-! ### Requests addressed to one key -/

/-- Every key argument of the request, and there is one, is the bulk string `b`. -/
def Addressed (F : FloatText) (frame : Value) (cmd : Command) (b : Bytes) : Prop :=
  ∃ args, frame = .array (some args) ∧ tryFrom F args = .ok cmd ∧ cmd.keyArgs args ≠ [] ∧
    ∀ arg ∈ cmd.keyArgs args, arg = .bulkString (some b)

namespace Addressed

variable {F : FloatText} {frame : Value} {cmd : Command} {b : Bytes}

theorem keyList (h : Addressed F frame cmd b) : ∀ key ∈ cmd.keyList, key = Str.fromUtf8Lossy b := by
  obtain ⟨args, -, hparse, -, hargs⟩ := h
  exact mapM_decodes (tryFrom_keys hparse) hargs

theorem onKeys (h : Addressed F frame cmd b) : cmd.onKeys = true := by
  obtain ⟨args, -, -, hne, -⟩ := h
  cases cmd with
  | keys pattern => exact absurd rfl hne
  | flushAll => exact absurd rfl hne
  | info => exact absurd rfl hne
  | _ => rfl

end Addressed

end FireRedis
