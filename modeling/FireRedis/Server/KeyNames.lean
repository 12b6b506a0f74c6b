import FireRedis.Commands.KeyArgs
import FireRedis.Persistence.Mirror
import FireRedis.Persistence.Reachable

/-!
# Distinct key arguments

A key argument reaches the store as the text it decodes to, with a replacement
character for every malformed sequence. A write addressed to one argument stays
out of sight of reads addressed to another one if and only if the two decode
differently.
-/

namespace FireRedis

def Command.observes : Command → Bool
  | .get _ | .type _ | .exists _ => true
  | _ => false

/-- No write addressed to `k₂` changes what a GET, TYPE or EXISTS addressed to
`k₁` answers, unless a deadline of `k₁` passes between the two reads. -/
def KeysApart (F : FloatText) (k₁ k₂ : Bytes) : Prop :=
  ∀ (s : Store) (before write after : Turn) (read cmd : Command),
    Reachable F (fun _ => True) s → after.frame = before.frame →
    Addressed F before.frame read k₁ → read.observes = true →
    Addressed F write.frame cmd k₂ → cmd.writes = true →
    (∀ d, s.expirations[Str.fromUtf8Lossy k₁]? = some d →
      (d ≤ before.now.instant ↔ d ≤ after.now.instant)) →
    (after.run F (write.run F s).2).1 = (before.run F s).1

theorem Addressed.parsesTo {F : FloatText} {frame : Value} {cmd : Command} {b : Bytes}
    (h : Addressed F frame cmd b) : ParsesTo F frame cmd := by
  obtain ⟨args, hframe, hparse, -⟩ := h
  exact ⟨args, hframe, hparse⟩

/-! ### Reads at two moments -/

theorem Mirror.refl (e : Option Entry) : Mirror e e := by
  cases e with
  | none => exact .absent
  | some e => exact .present e.value rfl

theorem onKey_observes (F : FloatText) (ord : IterOrder) (info : Bytes) {cmd : Command} {key : Str}
    (hread : cmd.observes = true) (hkeys : ∀ k ∈ cmd.keyList, k = key) :
    OnKey key False (cmd.execute F ord info) := by
  cases cmd with
  | get k =>
    obtain rfl := hkeys k (List.mem_singleton_self k)
    apply OnKey.withType
    exact .bind (.view none fun v => by cases v <;> exact .pure _) fun _ => .pure _
  | type k =>
    obtain rfl := hkeys k (List.mem_singleton_self k)
    exact .bind (.bind .lookup fun _ => .pure _) fun _ => .pure _
  | «exists» ks =>
    refine .bind (.foldlM _ _ _ fun n k hk => ?_) fun _ => .pure _
    obtain rfl := hkeys k hk
    exact .bind .existsKey fun present => .pure _
  | _ => cases hread

theorem liveOf_iff {t t' : Instant} (v : Option StoredValue) {d : Option Instant}
    (h : ∀ x, d = some x → (x ≤ t ↔ x ≤ t')) : liveOf t v d = liveOf t' v d := by
  cases v with
  | none => rfl
  | some v =>
    cases d with
    | none => rfl
    | some x => exact if_congr (h x rfl) rfl rfl

theorem execute_observes (F : FloatText) (ord ord' : IterOrder) (info info' : Bytes)
    {cmd : Command} (h : cmd.observes = true) :
    cmd.execute F ord info = cmd.execute F ord' info' := by
  cases cmd with
  | get k => rfl
  | type k => rfl
  | «exists» ks => rfl
  | _ => cases h

section Distinct

variable (F : FloatText) {k₁ k₂ : Bytes}

theorem keysApart_of_ne (hne : Str.fromUtf8Lossy k₁ ≠ Str.fromUtf8Lossy k₂) :
    KeysApart F k₁ k₂ := by
  intro s before write after read cmd hs hframe hread hobserves hwrite hcmd hexpiry
  have hinv : s.Inv fun _ => True := ⟨(reachable_inv hs).deadlines, fun _ _ _ => trivial⟩
  -- The write leaves both entries of the key that is read.
  have hkey : Str.fromUtf8Lossy k₁ ∉ cmd.keyList := fun h => hne (hwrite.keyList _ h)
  obtain ⟨hdata, hexpirations⟩ :=
    execute_untouched F write.ord write.info cmd hwrite.onKeys write.now s hkey
  rw [← run_parsed F hwrite.parsesTo s] at hdata hexpirations
  have hlive : s.live before.now.instant (Str.fromUtf8Lossy k₁) =
      (write.run F s).2.live after.now.instant (Str.fromUtf8Lossy k₁) := by
    rw [Store.live, Store.live, hdata, hexpirations]
    exact liveOf_iff _ hexpiry
  -- So the same program runs on the same entry.
  have hafter : ParsesTo F after.frame read := by
    rw [hframe]
    exact hread.parsesTo
  rw [run_parsed F hread.parsesTo, run_parsed F hafter,
    execute_observes F after.ord before.ord after.info before.info hobserves]
  have honKey := onKey_observes F before.ord before.info hobserves hread.keyList
  refine (honKey.mirror before.now after.now hinv (inv_run F write hinv) ?_).1.symm
  rw [hlive]
  exact .refl _

/-! ### Arguments that decode to one text -/

theorem handleExists_run {s : Store} (hs : s.Inv fun _ => True) (now : Reading) (key : Str) :
    ((handleExists [key]).runAt now s).1 =
      .ok (count (if (s.live now.instant key).isSome then 1 else 0)) := by
  rw [handleExists, List.foldlM_cons, bind_assoc, bind_assoc,
    runAt_bind_ok now (Store.existsKey_run hs now key)]
  rfl

def existsFrame (k : Bytes) : Value :=
  .array (some [.bulkString (some (Str.utf8 "EXISTS")), .bulkString (some k)])

def setFrame (k : Bytes) : Value :=
  .array (some [.bulkString (some (Str.utf8 "SET")), .bulkString (some k), .bulkString (some [])])

theorem addressed_exists (k : Bytes) :
    Addressed F (existsFrame k) (.exists [Str.fromUtf8Lossy k]) k :=
  ⟨_, rfl, rfl, List.cons_ne_nil _ _, fun _ harg => List.mem_singleton.mp harg⟩

theorem addressed_set (k : Bytes) :
    Addressed F (setFrame k) (.set (Str.fromUtf8Lossy k) [] none .none) k :=
  ⟨_, rfl, rfl, List.cons_ne_nil _ _, fun _ harg => List.mem_singleton.mp harg⟩

theorem not_keysApart (heq : Str.fromUtf8Lossy k₁ = Str.fromUtf8Lossy k₂) :
    ¬ KeysApart F k₁ k₂ := by
  intro hapart
  let read : Turn := ⟨existsFrame k₁, .sorted, [], ⟨0, 0⟩⟩
  let write : Turn := ⟨setFrame k₂, .sorted, [], ⟨0, 0⟩⟩
  have hread : Addressed F read.frame (.exists [Str.fromUtf8Lossy k₁]) k₁ := addressed_exists F k₁
  have hwrite := addressed_set F k₂
  have hsame := hapart Store.empty read write read _ _ .empty rfl hread rfl hwrite rfl
    fun _ _ => Iff.rfl
  have hempty : Store.empty.Inv fun _ => True := Store.inv_empty _
  have hset : (write.run F Store.empty).2.live 0 (Str.fromUtf8Lossy k₁) =
      some ⟨.string [], none⟩ := by
    rw [run_parsed F hwrite.parsesTo, heq, Command.execute, handleSet,
      runAt_bind_ok _ (Store.existsKey_run hempty _ _), if_neg (by simp), if_neg (by simp),
      runAt_bind_ok _ (Store.set_run ..), runAt_pure, Store.live_put_self]
    rfl
  have hkey : Store.empty.live 0 (Str.fromUtf8Lossy k₁) = none := rfl
  have hrun : ∀ s, read.run F s = (handleExists [Str.fromUtf8Lossy k₁]).runAt ⟨0, 0⟩ s :=
    run_parsed F hread.parsesTo
  rw [hrun, hrun, handleExists_run (inv_run F write hempty), handleExists_run hempty, hset,
    hkey] at hsame
  have hcount : count 1 = count 0 := Except.ok.inj hsame
  exact absurd (Value.integer.inj hcount) (by decide)

/-- Two key arguments are apart exactly if they decode differently. -/
theorem keys_apart (k₁ k₂ : Bytes) :
    KeysApart F k₁ k₂ ↔ Str.fromUtf8Lossy k₁ ≠ Str.fromUtf8Lossy k₂ :=
  ⟨fun h heq => not_keysApart F heq h, keysApart_of_ne F⟩

end Distinct

/-- The bytes FF and FE both decode to the replacement character. -/
theorem keys_merged : ¬ ∀ (F : FloatText) (k₁ k₂ : Bytes), k₁ ≠ k₂ → KeysApart F k₁ k₂ := by
  intro h
  have hdecode : Str.fromUtf8Lossy [0xFF] = Str.fromUtf8Lossy [0xFE] := by decide
  exact not_keysApart _ hdecode (h bitText [0xFF] [0xFE] (by decide))

end FireRedis
