import FireRedis.Commands.Names

/-!
# The options of SET (commands/mod.rs, `parse_set`)

The option loop takes one or two arguments at a turn and keeps two things that
may be set once. What it accepts is a grammar: groups of arguments that each
spell an option, in any order, with at most one option of either kind.
-/

namespace FireRedis

inductive SetOption where
  | nx
  | xx
  | ex (secs : UInt64)
  | px (ms : UInt64)

namespace SetOption

def condition : SetOption → Option SetCondition
  | nx => some .nx
  | xx => some .xx
  | _ => none

/-- The time to live in milliseconds. -/
def ttl : SetOption → Option UInt64
  | ex secs => some (secs * 1000)
  | px ms => some ms
  | _ => none

/-- The bytes are the name in some letter case. -/
def Names (name : String) (word : Bytes) : Prop := toAsciiUppercase word = Str.utf8 name

/-- The arguments that spell an option. -/
inductive Spelled : SetOption → List Value → Prop
  | nx (word : Bytes) (hword : Names "NX" word) : Spelled nx [.bulkString (some word)]
  | xx (word : Bytes) (hword : Names "XX" word) : Spelled xx [.bulkString (some word)]
  | ex (word : Bytes) (arg : Value) (secs : UInt64) (hword : Names "EX" word)
      (harg : bulkToU64 arg = .ok secs) : Spelled (ex secs) [.bulkString (some word), arg]
  | px (word : Bytes) (arg : Value) (ms : UInt64) (hword : Names "PX" word)
      (harg : bulkToU64 arg = .ok ms) : Spelled (px ms) [.bulkString (some word), arg]

/-- At most one option of either kind, and seconds that fit as milliseconds. -/
structure Allowed (os : List SetOption) : Prop where
  one_ttl : os.countP (fun o => o.ttl.isSome) ≤ 1
  one_condition : os.countP (fun o => o.condition.isSome) ≤ 1
  fits : ∀ secs, ex secs ∈ os → secs.toNat * 1000 < 2 ^ 64

end SetOption

/-! ### The loop on one group -/

section Turns

open SetOption

variable {word : Bytes} {args : List Value} {found : Option UInt64} {condition : SetCondition}

theorem shown_word {name : String} (hname : ∀ b ∈ Str.utf8 name, b < 0x80) (h : Names name word) :
    toAsciiUppercase (Str.fromUtf8Lossy word).bytes = Str.utf8 name :=
  (uppercase_lossy hname word).mpr h

theorem turn_nx (h : Names "NX" word) :
    parseSetOptions (.bulkString (some word) :: args) found condition =
      if condition ≠ .none then reject "ERR syntax error" else parseSetOptions args found .nx := by
  have hshown := shown_word (by decide +kernel) h
  rw [parseSetOptions, bulkToString]
  simp only [Pure.pure, Except.pure, Bind.bind, Except.bind, hshown]
  rfl

theorem turn_xx (h : Names "XX" word) :
    parseSetOptions (.bulkString (some word) :: args) found condition =
      if condition ≠ .none then reject "ERR syntax error" else parseSetOptions args found .xx := by
  have hshown := shown_word (by decide +kernel) h
  rw [parseSetOptions, bulkToString]
  simp only [Pure.pure, Except.pure, Bind.bind, Except.bind, hshown]
  rfl

variable {arg : Value} {n : UInt64} (harg : bulkToU64 arg = .ok n)
include harg

theorem turn_ex (h : Names "EX" word) :
    parseSetOptions (.bulkString (some word) :: arg :: args) found condition =
      if found.isSome then reject "ERR syntax error"
      else if n.toNat * 1000 < 2 ^ 64 then parseSetOptions args (some (n * 1000)) condition
      else reject "ERR invalid expire time in 'set' command" := by
  have hshown := shown_word (by decide +kernel) h
  rw [parseSetOptions, bulkToString]
  simp only [Pure.pure, Except.pure, Bind.bind, Except.bind, hshown, harg]
  rfl

theorem turn_px (h : Names "PX" word) :
    parseSetOptions (.bulkString (some word) :: arg :: args) found condition =
      if found.isSome then reject "ERR syntax error"
      else parseSetOptions args (some n) condition := by
  have hshown := shown_word (by decide +kernel) h
  rw [parseSetOptions, bulkToString]
  simp only [Pure.pure, Except.pure, Bind.bind, Except.bind, hshown, harg]
  rfl

end Turns

/-! ### The loop on groups -/

namespace SetOption

/-- What the loop makes of options, after it has found one of either kind or none. -/
structure Taken (os : List SetOption) (found : Option UInt64) (condition : SetCondition)
    (r : Option UInt64 × SetCondition) : Prop where
  one_ttl : found.isSome.toNat + os.countP (fun o => o.ttl.isSome) ≤ 1
  one_condition : (decide (condition ≠ .none)).toNat + os.countP (fun o => o.condition.isSome) ≤ 1
  fits : ∀ secs, ex secs ∈ os → secs.toNat * 1000 < 2 ^ 64
  result : r = (found.or (os.findSome? ttl),
    if condition ≠ .none then condition else (os.findSome? SetOption.condition).getD .none)

theorem taken_nil {found : Option UInt64} {condition : SetCondition}
    {r : Option UInt64 × SetCondition} : Taken [] found condition r ↔ r = (found, condition) := by
  constructor
  · rintro ⟨-, -, -, rfl⟩
    cases condition <;> simp
  · rintro rfl
    refine ⟨?_, ?_, by simp, ?_⟩
    · cases found <;> simp
    · cases condition <;> simp
    · cases condition <;> simp

section Cons

variable {o : SetOption} {os : List SetOption} {found : Option UInt64} {condition : SetCondition}
  {r : Option UInt64 × SetCondition}

theorem taken_condition {c : SetCondition} (hc : o.condition = some c) (hne : c ≠ .none)
    (httl : o.ttl = none) : Taken (o :: os) found condition r ↔
      condition = .none ∧ Taken os found c r := by
  have hfits : (∀ secs, ex secs ∈ o :: os → secs.toNat * 1000 < 2 ^ 64) ↔
      ∀ secs, ex secs ∈ os → secs.toNat * 1000 < 2 ^ 64 := by
    cases o <;> simp_all [ttl]
  constructor
  · rintro ⟨hone, hother, hfit, hr⟩
    have hnone : condition = .none := by
      by_contra hset
      simp [hset, hc] at hother
    subst hnone
    refine ⟨rfl, ?_, ?_, hfits.mp hfit, ?_⟩
    · simpa [httl] using hone
    · simpa [hc, hne, Nat.add_comm] using hother
    · simpa [httl, hc, hne] using hr
  · rintro ⟨rfl, hone, hother, hfit, hr⟩
    refine ⟨?_, ?_, hfits.mpr hfit, ?_⟩
    · simpa [httl] using hone
    · simpa [hc, hne, Nat.add_comm] using hother
    · simpa [httl, hc, hne] using hr

theorem taken_ttl {ms : UInt64} (httl : o.ttl = some ms) (hc : o.condition = none) :
    Taken (o :: os) found condition r ↔ found = none ∧
      (∀ secs, o = ex secs → secs.toNat * 1000 < 2 ^ 64) ∧ Taken os (some ms) condition r := by
  constructor
  · rintro ⟨hone, hother, hfit, hr⟩
    have hnone : found = none := by
      by_contra hset
      obtain ⟨x, rfl⟩ := Option.ne_none_iff_exists'.mp hset
      simp [httl] at hone
    subst hnone
    refine ⟨rfl, fun secs ho => hfit secs (ho ▸ List.mem_cons_self ..), ?_, ?_,
      fun secs h => hfit secs (List.mem_cons_of_mem _ h), ?_⟩
    · simpa [httl, Nat.add_comm] using hone
    · simpa [hc] using hother
    · simpa [httl, hc] using hr
  · rintro ⟨rfl, hfirst, hone, hother, hfit, hr⟩
    refine ⟨?_, ?_, ?_, ?_⟩
    · simpa [httl, Nat.add_comm] using hone
    · simpa [hc] using hother
    · intro secs h
      rcases List.mem_cons.mp h with ho | h
      · exact hfirst secs ho.symm
      · exact hfit secs h
    · simpa [httl, hc] using hr

end Cons

theorem parse_groups {groups : List (SetOption × List Value)} (h : ∀ g ∈ groups, Spelled g.1 g.2)
    (found : Option UInt64) (condition : SetCondition) (r : Option UInt64 × SetCondition) :
    parseSetOptions (groups.flatMap Prod.snd) found condition = .ok r ↔
      Taken (groups.map Prod.fst) found condition r := by
  induction groups generalizing found condition with
  | nil =>
    rw [List.map_nil, taken_nil]
    exact ⟨fun h => (Except.ok.inj h).symm, fun h => congrArg Except.ok h.symm⟩
  | cons g groups ih =>
    obtain ⟨hg, hgroups⟩ := List.forall_mem_cons.mp h
    replace ih := ih hgroups
    obtain ⟨o, args⟩ := g
    rw [List.flatMap_cons, List.map_cons]
    cases hg with
    | nx word hword =>
      rw [taken_condition rfl (by simp) rfl, ← ih]
      by_cases hnone : condition = .none <;> simp [turn_nx hword, hnone, reject]
    | xx word hword =>
      rw [taken_condition rfl (by simp) rfl, ← ih]
      by_cases hnone : condition = .none <;> simp [turn_xx hword, hnone, reject]
    | ex word arg secs hword harg =>
      rw [taken_ttl rfl rfl, ← ih]
      cases found with
      | some x => simp [turn_ex harg hword, reject]
      | none =>
        rw [List.cons_append, List.cons_append, List.nil_append, turn_ex harg hword,
          if_neg (by simp)]
        by_cases hfits : secs.toNat * 1000 < 2 ^ 64
        · rw [if_pos hfits]
          refine ⟨fun h => ⟨rfl, fun n hn => ?_, h⟩, fun h => h.2.2⟩
          cases hn
          exact hfits
        · rw [if_neg hfits]
          exact ⟨fun h => (by cases h), fun h => absurd (h.2.1 secs rfl) hfits⟩
    | px word arg ms hword harg =>
      rw [taken_ttl rfl rfl, ← ih]
      cases found <;> simp [turn_px harg hword, reject]

theorem bulkToString_ok {v : Value} {text : Str} (h : bulkToString v = .ok text) :
    ∃ b, v = .bulkString (some b) ∧ Str.fromUtf8Lossy b = text := by
  unfold bulkToString at h
  split at h
  · exact ⟨_, rfl, Except.ok.inj h⟩
  · cases h

theorem bulkToBytes_ok {v : Value} {b : Bytes} (h : bulkToBytes v = .ok b) :
    v = .bulkString (some b) := by
  unfold bulkToBytes at h
  split at h
  · rw [Except.ok.inj h]
  · cases h

/-- What the loop accepts splits into groups. -/
theorem groups_of_parse {args : List Value} {found : Option UInt64} {condition : SetCondition}
    {r : Option UInt64 × SetCondition} (h : parseSetOptions args found condition = .ok r) :
    ∃ groups : List (SetOption × List Value), (∀ g ∈ groups, Spelled g.1 g.2) ∧
      args = groups.flatMap Prod.snd := by
  induction args, found, condition using parseSetOptions.induct with
  | case1 found condition => exact ⟨[], by simp, rfl⟩
  | case2 opt args found condition ihTtl ihNx ihXx =>
    have hmore : ∀ {rest : List Value} (o : SetOption) (front : List Value), Spelled o front →
        (∃ groups : List (SetOption × List Value), (∀ g ∈ groups, Spelled g.1 g.2) ∧
          rest = groups.flatMap Prod.snd) →
        ∃ groups : List (SetOption × List Value), (∀ g ∈ groups, Spelled g.1 g.2) ∧
          front ++ rest = groups.flatMap Prod.snd := by
      rintro rest o front ho ⟨groups, hgroups, rfl⟩
      exact ⟨(o, front) :: groups, List.forall_mem_cons.mpr ⟨ho, hgroups⟩, rfl⟩
    rw [parseSetOptions] at h
    obtain ⟨shown, hshown, h⟩ := bind_eq_ok h
    obtain ⟨word, rfl, rfl⟩ := bulkToString_ok hshown
    have hname : ∀ {name : String}, (∀ b ∈ Str.utf8 name, b < 0x80) →
        toAsciiUppercase (Str.fromUtf8Lossy word).bytes = Str.utf8 name → Names name word :=
      fun hascii => (uppercase_lossy hascii word).mp
    dsimp only at h
    split at h
    · rename_i htime
      cases args with
      | nil => cases h
      | cons arg args =>
        dsimp only at h ihTtl
        split at h
        · cases h
        · obtain ⟨n, hn, h⟩ := bind_eq_ok h
          split at h
          · rename_i hex
            split at h
            · have hword := hname (by decide +kernel) hex
              exact hmore _ [_, arg] (.ex word arg n hword hn) (ihTtl.1 n h)
            · cases h
          · rename_i hex
            have hpx := htime.resolve_left hex
            have hword := hname (by decide +kernel) hpx
            exact hmore _ [_, arg] (.px word arg n hword hn) (ihTtl.2 n h)
    · split at h
      · rename_i hnx
        split at h
        · cases h
        · exact hmore _ [_] (.nx word (hname (by decide +kernel) hnx)) (ihNx h)
      · split at h
        · rename_i hxx
          split at h
          · cases h
          · exact hmore _ [_] (.xx word (hname (by decide +kernel) hxx)) (ihXx h)
        · cases h

theorem taken_iff {os : List SetOption} {r : Option UInt64 × SetCondition} :
    Taken os none .none r ↔
      Allowed os ∧ r = (os.findSome? ttl, (os.findSome? SetOption.condition).getD .none) := by
  constructor
  · rintro ⟨hone, hother, hfits, hr⟩
    exact ⟨⟨by simpa using hone, by simpa using hother, hfits⟩, by simpa using hr⟩
  · rintro ⟨⟨hone, hother, hfits⟩, hr⟩
    exact ⟨by simpa using hone, by simpa using hother, hfits, by simpa using hr⟩

/-! ### The order of the options -/

theorem findSome_perm {α β : Type} {f : α → Option β} {xs ys : List α} (h : xs.Perm ys)
    (hone : xs.countP (fun x => (f x).isSome) ≤ 1) : xs.findSome? f = ys.findSome? f := by
  have hperm := h.filterMap f
  have hlen : (xs.filterMap f).length ≤ 1 := by rwa [List.length_filterMap_eq_countP]
  rw [← List.head?_filterMap, ← List.head?_filterMap]
  match hxs : xs.filterMap f with
  | [] =>
    rw [hxs] at hperm
    rw [List.nil_perm.mp hperm]
  | [b] =>
    rw [hxs] at hperm
    rw [List.singleton_perm.mp hperm]
  | _ :: _ :: _ =>
    rw [hxs] at hlen
    simp at hlen

theorem Allowed.perm {os os' : List SetOption} (h : Allowed os) (hperm : os.Perm os') :
    Allowed os' where
  one_ttl := hperm.countP_eq _ ▸ h.one_ttl
  one_condition := hperm.countP_eq _ ▸ h.one_condition
  fits secs hmem := h.fits secs (hperm.mem_iff.mpr hmem)

end SetOption

/-! ### The request -/

section Request

open SetOption

/-- What SET is made of a list of options. -/
def setCommand (key value : Bytes) (os : List SetOption) : Command :=
  .set (Str.fromUtf8Lossy key) value (os.findSome? ttl)
    ((os.findSome? SetOption.condition).getD .none)

theorem setCommand_perm {os os' : List SetOption} (h : Allowed os) (hperm : os.Perm os')
    (k v : Bytes) : setCommand k v os = setCommand k v os' := by
  rw [setCommand, findSome_perm hperm h.one_ttl, findSome_perm hperm h.one_condition]
  rfl

variable {name : Value} {k v : Bytes} {groups : List (SetOption × List Value)}
  (hgroups : ∀ g ∈ groups, Spelled g.1 g.2)
include hgroups

theorem parseSet_groups (cmd : Command) :
    parseSet (name :: .bulkString (some k) :: .bulkString (some v) :: groups.flatMap Prod.snd) =
        .ok cmd ↔
      Allowed (groups.map Prod.fst) ∧ cmd = setCommand k v (groups.map Prod.fst) := by
  constructor
  · intro h
    obtain ⟨_, _, _, opts, k', v', o, heq, hk, hv, ho, rfl⟩ := parseSet_ok h
    simp only [List.cons.injEq] at heq
    obtain ⟨-, rfl, rfl, rfl⟩ := heq
    obtain ⟨hallowed, hr⟩ := taken_iff.mp ((parse_groups hgroups none .none o).mp ho)
    refine ⟨hallowed, ?_⟩
    rw [← Except.ok.inj hk, ← Except.ok.inj hv, hr, setCommand]
  · rintro ⟨hallowed, rfl⟩
    have hopts := (parse_groups hgroups none .none _).mpr (taken_iff.mpr ⟨hallowed, rfl⟩)
    rw [parseSet, hopts]
    rfl

end Request

open SetOption in
/-- `parse_set` accepts exactly the key, the value and groups that are allowed
together, and makes the same command of them in any order. -/
theorem set_grammar (F : FloatText) (name : Bytes) (hname : Names "SET" name) (rest : List Value) :
    tryFrom F (.bulkString (some name) :: rest) = parseSet (.bulkString (some name) :: rest) ∧
    (∀ cmd, parseSet (.bulkString (some name) :: rest) = .ok cmd ↔
      ∃ (k v : Bytes) (groups : List (SetOption × List Value)),
        rest = .bulkString (some k) :: .bulkString (some v) :: groups.flatMap Prod.snd ∧
        (∀ g ∈ groups, Spelled g.1 g.2) ∧ Allowed (groups.map Prod.fst) ∧
        cmd = .set (Str.fromUtf8Lossy k) v ((groups.map Prod.fst).findSome? ttl)
          (((groups.map Prod.fst).findSome? SetOption.condition).getD .none)) ∧
    ∀ (k v : Bytes) (groups groups' : List (SetOption × List Value)),
      (∀ g ∈ groups, Spelled g.1 g.2) → groups.Perm groups' → ∀ cmd,
        parseSet (.bulkString (some name) :: .bulkString (some k) :: .bulkString (some v) ::
          groups.flatMap Prod.snd) = .ok cmd ↔
        parseSet (.bulkString (some name) :: .bulkString (some k) :: .bulkString (some v) ::
          groups'.flatMap Prod.snd) = .ok cmd := by
  refine ⟨?_, fun cmd => ⟨fun h => ?_, ?_⟩, fun k v groups groups' hgroups hperm cmd => ?_⟩
  · rw [tryFrom, show toAsciiUppercase name = Str.utf8 "SET" from hname]
    rfl
  · obtain ⟨_, key, val, opts, _, _, o, heq, hk, hv, ho, -⟩ := parseSet_ok h
    obtain ⟨-, rfl⟩ := List.cons.inj heq
    obtain ⟨k, rfl, -⟩ := bulkToString_ok hk
    obtain rfl := bulkToBytes_ok hv
    obtain ⟨groups, hgroups, rfl⟩ := groups_of_parse ho
    obtain ⟨hallowed, hcmd⟩ := (parseSet_groups hgroups cmd).mp h
    exact ⟨k, _, groups, rfl, hgroups, hallowed, hcmd⟩
  · rintro ⟨k, v, groups, rfl, hgroups, hallowed, hcmd⟩
    exact (parseSet_groups hgroups cmd).mpr ⟨hallowed, hcmd⟩
  · have hgroups' : ∀ g ∈ groups', Spelled g.1 g.2 := fun g hg => hgroups g (hperm.mem_iff.mpr hg)
    have hos := hperm.map Prod.fst
    rw [parseSet_groups hgroups, parseSet_groups hgroups']
    constructor
    · rintro ⟨hallowed, rfl⟩
      exact ⟨hallowed.perm hos, setCommand_perm hallowed hos k v⟩
    · rintro ⟨hallowed, rfl⟩
      exact ⟨hallowed.perm hos.symm, setCommand_perm hallowed hos.symm k v⟩

open SetOption in
/-- set k v nX pX 5, and the options the other way round. -/
theorem set_grammar_both :
    let F : FloatText := noFloats
    let bulk (text : String) : Value := .bulkString (some (Str.utf8 text))
    tryFrom F [bulk "set", bulk "k", bulk "v", bulk "nX", bulk "pX", .integer 5] =
        .ok (.set (Str.fromUtf8Lossy (Str.utf8 "k")) (Str.utf8 "v") (some 5) .nx) ∧
      parseSet [bulk "set", bulk "k", bulk "v", bulk "pX", .integer 5, bulk "nX"] =
        .ok (.set (Str.fromUtf8Lossy (Str.utf8 "k")) (Str.utf8 "v") (some 5) .nx) := by
  intro F bulk
  have hname : Names "SET" (Str.utf8 "set") := by
    unfold Names
    decide
  have hnx : Spelled nx [bulk "nX"] := .nx (Str.utf8 "nX") (by unfold Names; decide)
  have hpx : Spelled (px 5) [bulk "pX", .integer 5] :=
    .px (Str.utf8 "pX") (.integer 5) 5 (by unfold Names; decide) rfl
  have hgroups : ∀ g ∈ [(nx, [bulk "nX"]), (px 5, [bulk "pX", .integer 5])], Spelled g.1 g.2 := by
    intro g hg
    rcases List.mem_pair.mp hg with rfl | rfl
    · exact hnx
    · exact hpx
  obtain ⟨hparser, haccepts, horder⟩ := set_grammar F (Str.utf8 "set") hname
    [bulk "k", bulk "v", bulk "nX", bulk "pX", .integer 5]
  have hfirst := (haccepts _).mpr ⟨Str.utf8 "k", Str.utf8 "v", _, rfl, hgroups,
    ⟨by decide, by decide, fun secs h => by simp at h⟩, rfl⟩
  refine ⟨hparser.trans hfirst, ?_⟩
  exact (horder (Str.utf8 "k") (Str.utf8 "v") _ [(px 5, [bulk "pX", .integer 5]), (nx, [bulk "nX"])]
    hgroups (List.Perm.swap ..) _).mp hfirst

end FireRedis
