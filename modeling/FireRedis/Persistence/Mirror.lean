import FireRedis.Server.Apart

/-!
# The same command at two moments

A logged command asks whether its key is live and what it holds, never when its
deadline is. Executed at two moments on entries that mirror each other, it gives
entries that mirror each other again.
-/

namespace FireRedis

/-- The same value, with a deadline on both sides or on neither. -/
inductive Mirror : Option Entry → Option Entry → Prop
  | absent : Mirror none none
  | present (v : StoredValue) {d d' : Option Instant} (h : d.isSome = d'.isSome) :
      Mirror (some ⟨v, d⟩) (some ⟨v, d'⟩)

namespace Mirror

variable {e e' : Option Entry}

theorem map_value (h : Mirror e e') : e.map Entry.value = e'.map Entry.value := by
  cases h <;> rfl

theorem deadline (h : Mirror e e') :
    (e.bind Entry.deadline).isSome = (e'.bind Entry.deadline).isSome := by
  cases h with
  | absent => rfl
  | present v h => exact h

theorem permanent {v : StoredValue} (h : Mirror (some ⟨v, none⟩) e') : e' = some ⟨v, none⟩ := by
  cases h with
  | @present v d d' h =>
    cases d' with
    | none => rfl
    | some d' => cases h

theorem kept {t t' : Instant} {u u' : Option StoredValue} {d d' : Option Instant}
    (h : Mirror (liveOf t u d) (liveOf t' u' d')) (v : StoredValue) :
    Mirror (liveOf t (some v) ((liveOf t u d).bind Entry.deadline))
      (liveOf t' (some v) ((liveOf t' u' d').bind Entry.deadline)) := by
  rw [Store.liveOf_deadline, Store.liveOf_deadline]
  exact present v h.deadline

/-- A value under a new deadline, which has passed at once if it is no time away. -/
theorem fresh (t t' : Instant) (v : StoredValue) (px : Option UInt64) :
    Mirror (liveOf t (some v) (px.map fun ms => t + fromMillis ms))
      (liveOf t' (some v) (px.map fun ms => t' + fromMillis ms)) := by
  cases px with
  | none => exact present v rfl
  | some ms =>
    rw [Option.map_some, Option.map_some]
    by_cases hms : fromMillis ms = 0
    · have hlive : ∀ t : Instant, liveOf t (some v) (some (t + fromMillis ms)) = none := by
        intro t
        simp [liveOf, hms]
      rw [hlive, hlive]
      exact absent
    · have hpos := Nat.pos_of_ne_zero hms
      rw [liveOf_ttl t v hpos, liveOf_ttl t' v hpos]
      exact present v (by rw [Option.isSome_some, Option.isSome_some])

end Mirror

/-! ### Programs on one key -/

/-- A program on one key that reads no deadline. It puts a value under an absent
key only where `creates` holds. -/
inductive OnKey (key : Str) (creates : Prop) : {α : Type} → StoreM α → Prop
  | pure {α : Type} (a : α) : OnKey key creates (pure a)
  | bind {α β : Type} {m : StoreM α} {f : α → StoreM β} (hm : OnKey key creates m)
      (hf : ∀ a, OnKey key creates (f a)) : OnKey key creates (m >>= f)
  | lookup : OnKey key creates (Store.lookup key)
  | upsert {α : Type} (init : StoredValue) (f : StoredValue → α × StoredValue) (h : creates) :
      OnKey key creates (Store.upsert key init f)
  | amend {α : Type} (absent : α) (f : StoredValue → α × StoredValue × Bool) :
      OnKey key creates (Store.amend key absent f)
  | set (value : Bytes) (px : Option UInt64) (h : creates) :
      OnKey key creates (Store.set key value px)
  | expire (ms : UInt64) : OnKey key creates (Store.expire key ms)

namespace OnKey

section Rules

variable {key : Str} {creates : Prop} {α : Type}

theorem existsKey : OnKey key creates (Store.existsKey key) := bind lookup fun _ => pure _

theorem view (absent : α) {f : StoredValue → StoreM α} (hf : ∀ v, OnKey key creates (f v)) :
    OnKey key creates (Store.view key absent f) := by
  apply bind lookup
  intro value
  cases value with
  | none => exact pure absent
  | some v => exact hf v

theorem withType (expected : String) {body : StoreM Value} (hb : OnKey key creates body) :
    OnKey key creates (withType key expected body) := by
  apply bind
  · apply bind (bind lookup fun _ => pure _)
    intro actual
    cases actual with
    | none => exact pure none
    | some actual => exact pure _
  · intro err
    cases err with
    | none => exact hb
    | some err => exact pure err

theorem remove (expected : String) (absent : α) (f : StoredValue → α × StoredValue × Bool)
    (reply : α → Value) :
    OnKey key creates (FireRedis.withType key expected do
      return reply (← Store.amend key absent f)) :=
  withType expected (bind (amend absent f) fun a => pure (reply a))

theorem foldlM {β : Type} (f : β → α → StoreM β) (items : List α) (b : β)
    (h : ∀ b, ∀ a ∈ items, OnKey key creates (f b a)) : OnKey key creates (items.foldlM f b) := by
  induction items generalizing b with
  | nil => exact pure b
  | cons a items ih =>
    rw [List.foldlM_cons]
    apply bind (h b a (List.mem_cons_self ..))
    exact fun b => ih b fun b a ha => h b a (List.mem_cons_of_mem _ ha)

end Rules

/-! ### What they do at two moments -/

section Run

variable {key : Str} {creates : Prop} {α : Type} {m : StoreM α}

theorem within (h : OnKey key creates m) :
    Within ⟨fun k => k = key, fun _ => True, True, True, True⟩ m := by
  induction h with
  | pure a => exact .pure a
  | bind hm hf ihm ihf => exact .bind ihm ihf
  | lookup => exact .lookup key rfl
  | upsert init f h => exact .upsert key init f rfl trivial trivial fun _ _ => trivial
  | amend absent f => exact .amend key absent f rfl trivial fun _ _ _ => trivial
  | set value px h => exact .set key value px rfl trivial (fun _ => trivial) trivial
  | expire ms => exact .expire key ms rfl trivial trivial

theorem inv (h : OnKey key creates m) (now : Reading) {s : Store} (hs : s.Inv fun _ => True) :
    (m.runAt now s).2.Inv fun _ => True := (Within.effect now h.within hs).inv

/-- Executed at two moments, the program gives one result and keeps the mirror. -/
theorem mirror (h : OnKey key creates m) (now now' : Reading) {s s' : Store}
    (hs : s.Inv fun _ => True) (hs' : s'.Inv fun _ => True)
    (hm : Mirror (s.live now.instant key) (s'.live now'.instant key)) :
    (m.runAt now s).1 = (m.runAt now' s').1 ∧
      Mirror ((m.runAt now s).2.live now.instant key)
        ((m.runAt now' s').2.live now'.instant key) := by
  induction h generalizing s s' with
  | pure a => exact ⟨rfl, hm⟩
  | @bind α β m f hprog hf ihm ihf =>
    have hstep := ihm hs hs' hm
    have i := hprog.inv now hs
    have i' := hprog.inv now' hs'
    rw [runAt_bind, runAt_bind]
    rcases hr : m.runAt now s with ⟨p | a, u⟩ <;>
      rcases hr' : m.runAt now' s' with ⟨p' | a', u'⟩ <;>
      rw [hr, hr'] at hstep
    · obtain rfl : p = p' := Except.error.inj hstep.1
      exact ⟨rfl, hstep.2⟩
    · exact absurd hstep.1 (by simp)
    · exact absurd hstep.1 (by simp)
    · rw [hr] at i
      rw [hr'] at i'
      obtain rfl : a = a' := Except.ok.inj hstep.1
      exact ihf a i i' hstep.2
  | lookup =>
    rw [Store.lookup_run hs, Store.lookup_run hs', hm.map_value, Store.live_touch, Store.live_touch]
    exact ⟨rfl, hm⟩
  | upsert init f h =>
    rw [Store.upsert_run hs, Store.upsert_run hs', hm.map_value, Store.live_put_self,
      Store.live_put_self]
    exact ⟨rfl, hm.kept _⟩
  | amend absent f =>
    have hkept := hm.kept
    rw [← Store.live, ← Store.live] at hkept
    rw [Store.amend_run hs, Store.amend_run hs']
    generalize s.live now.instant key = e at hm hkept
    generalize s'.live now'.instant key = e' at hm hkept
    cases hm with
    | absent =>
      rw [Store.live_put_self, Store.live_put_self]
      exact ⟨rfl, .absent⟩
    | present v h =>
      dsimp only
      split
      · rw [Store.live_put_self, Store.live_put_self]
        exact ⟨rfl, .absent⟩
      · rw [Store.live_put_self, Store.live_put_self]
        exact ⟨rfl, hkept _⟩
  | set value px h =>
    rw [Store.set_run, Store.set_run, Store.live_put_self, Store.live_put_self]
    exact ⟨rfl, .fresh now.instant now'.instant _ px⟩
  | expire ms =>
    rw [Store.expire_run hs, Store.expire_run hs']
    generalize s.live now.instant key = e at hm
    generalize s'.live now'.instant key = e' at hm
    cases hm with
    | absent =>
      rw [Store.live_put_self, Store.live_put_self]
      exact ⟨rfl, .absent⟩
    | present v h =>
      dsimp only
      rw [Store.live_put_self, Store.live_put_self]
      exact ⟨rfl, .fresh now.instant now'.instant v (some ms)⟩

theorem stays_absent (h : OnKey key creates m) (hc : ¬ creates) (now : Reading) {s : Store}
    (hs : s.Inv fun _ => True) (hnone : s.live now.instant key = none) :
    (m.runAt now s).2.live now.instant key = none := by
  induction h generalizing s with
  | pure a => exact hnone
  | @bind α β m f hprog hf ihm ihf =>
    have hstep := ihm hs hnone
    have i := hprog.inv now hs
    rw [runAt_bind]
    rcases hr : m.runAt now s with ⟨p | a, u⟩
    · rw [hr] at hstep
      exact hstep
    · rw [hr] at hstep i
      exact ihf a i hstep
  | lookup =>
    rw [Store.lookup_run hs, Store.live_touch]
    exact hnone
  | upsert init f h => exact absurd h hc
  | amend absent f =>
    rw [Store.amend_run hs, hnone, Store.live_put_self]
    rfl
  | set value px h => exact absurd h hc
  | expire ms =>
    rw [Store.expire_run hs, hnone, Store.live_put_self]
    rfl

end Run

end OnKey

/-! ### Commands -/

namespace Command

/-- Whether the key holds afterwards what it would hold had it been absent. -/
def replaces : Command → Str → Bool
  | .set k _ _ condition, key => condition = .none && k = key
  | .mSet entries, key => entries.any fun entry => entry.1 = key
  | .del ks, key => ks.contains key
  | .flushAll, _ => true
  | _, _ => false

/-- Whether an absent key gets a value that depends on its absence. -/
def creates : Command → Str → Bool
  | .set k _ _ condition, key => condition = .nx && k = key
  | .incr k, key | .decr k, key | .append k _, key => k = key
  | .lPush k _, key | .rPush k _, key | .sAdd k _, key | .hSet k _, key | .zAdd k _, key => k = key
  | _, _ => false

end Command

section Execute

variable (F : FloatText) (ord : IterOrder) (info : Bytes) (now now' : Reading)

theorem writes_of_replaces {cmd : Command} {key : Str} (h : cmd.replaces key = true) :
    cmd.writes = true := by
  cases cmd with
  | set k v px condition => rfl
  | mSet entries => rfl
  | del ks => rfl
  | flushAll => rfl
  | _ => cases h

theorem writes_of_creates {cmd : Command} {key : Str} (h : cmd.creates key = true) :
    cmd.writes = true := by
  cases cmd with
  | set k v px condition => rfl
  | incr k => rfl
  | decr k => rfl
  | append k v => rfl
  | lPush k vals => rfl
  | rPush k vals => rfl
  | sAdd k members => rfl
  | hSet k fields => rfl
  | zAdd k entries => rfl
  | _ => cases h

theorem onKey_set {key : Str} {creates : Prop} (v : Bytes) (px : Option UInt64)
    (condition : SetCondition) (h : creates) :
    OnKey key creates (handleSet key v px condition) := by
  apply OnKey.bind OnKey.existsKey
  intro present
  split
  · exact .pure _
  · split
    · exact .pure _
    · exact .bind (.set v px h) fun _ => .pure _

/-- SET XX is left out: it stores a value, but never under an absent key. -/
theorem onKey_execute {cmd : Command} {key : Str} (hlog : cmd.isLogged = true)
    (htouch : cmd.touches key) (hrep : cmd.replaces key = false) (hpop : cmd.name ≠ "SPOP")
    (hxx : ∀ v px, cmd ≠ .set key v px .xx) :
    OnKey key (cmd.creates key = true) (cmd.execute F ord info) := by
  have hcreates : decide (key = key) = true := decide_eq_true rfl
  cases cmd with
  | set k v px condition =>
    obtain rfl := List.mem_singleton.mp htouch
    cases condition with
    | none => simp [Command.replaces] at hrep
    | nx => exact onKey_set v px .nx (by simp [Command.creates])
    | xx => exact absurd rfl (hxx v px)
  | mSet entries =>
    obtain ⟨entry, hentry, hkey⟩ := List.mem_map.mp htouch
    have hany : (Command.mSet entries).replaces key = true :=
      List.any_eq_true.mpr ⟨entry, hentry, decide_eq_true hkey⟩
    cases hrep.symm.trans hany
  | del ks =>
    have hcontains : (Command.del ks).replaces key = true := List.contains_iff_mem.mpr htouch
    cases hrep.symm.trans hcontains
  | flushAll => cases hrep
  | sPop k n => exact absurd rfl hpop
  | strLen k =>
    obtain rfl := List.mem_singleton.mp htouch
    refine .withType "string" (.bind (.view 0 fun v => ?_) fun _ => .pure _)
    cases v <;> exact .pure _
  | expire k ms =>
    obtain rfl := List.mem_singleton.mp htouch
    exact .bind (.expire ms) fun found => by cases found <;> exact .pure _
  | incr k =>
    obtain rfl := List.mem_singleton.mp htouch
    exact .bind (.upsert _ _ hcreates) fun _ => .pure _
  | decr k =>
    obtain rfl := List.mem_singleton.mp htouch
    exact .bind (.upsert _ _ hcreates) fun _ => .pure _
  | append k v =>
    obtain rfl := List.mem_singleton.mp htouch
    exact .withType "string" (.bind (.upsert _ _ hcreates) fun _ => .pure _)
  | lPush k vals =>
    obtain rfl := List.mem_singleton.mp htouch
    apply OnKey.withType
    split
    · exact .pure _
    · exact .bind (.foldlM _ _ _ fun _ _ _ => .upsert _ _ hcreates) fun _ => .pure _
  | rPush k vals =>
    obtain rfl := List.mem_singleton.mp htouch
    apply OnKey.withType
    split
    · exact .pure _
    · exact .bind (.foldlM _ _ _ fun _ _ _ => .upsert _ _ hcreates) fun _ => .pure _
  | lPop k =>
    obtain rfl := List.mem_singleton.mp htouch
    exact .remove "list" none _ _
  | rPop k =>
    obtain rfl := List.mem_singleton.mp htouch
    exact .remove "list" none _ _
  | sAdd k members =>
    obtain rfl := List.mem_singleton.mp htouch
    exact .withType "set" (.bind (.upsert _ _ hcreates) fun _ => .pure _)
  | sRem k members =>
    obtain rfl := List.mem_singleton.mp htouch
    exact .remove "set" 0 _ _
  | hSet k fields =>
    obtain rfl := List.mem_singleton.mp htouch
    exact .withType "hash" (.bind (.foldlM _ _ _ fun _ _ _ =>
      .bind (.upsert _ _ hcreates) fun _ => .pure _) fun _ => .pure _)
  | hDel k fields =>
    obtain rfl := List.mem_singleton.mp htouch
    exact .remove "hash" 0 _ _
  | zAdd k entries =>
    obtain rfl := List.mem_singleton.mp htouch
    exact .withType "zset" (.bind (.foldlM _ _ _ fun _ _ _ =>
      .bind (.upsert _ _ hcreates) fun _ => .pure _) fun _ => .pure _)
  | zRem k members =>
    obtain rfl := List.mem_singleton.mp htouch
    exact .remove "zset" 0 _ _
  | _ => cases hlog

variable {cmd : Command} {key : Str} {s s' : Store} (hs : s.Inv fun _ => True)
  (hs' : s'.Inv fun _ => True)

include hs hs' in
theorem mirror_execute (hlog : cmd.isLogged = true) (hpop : cmd.name ≠ "SPOP")
    (hm : Mirror (s.live now.instant key) (s'.live now'.instant key))
    (hrep : cmd.replaces key = false) :
    Mirror (((cmd.execute F ord info).runAt now s).2.live now.instant key)
      (((cmd.execute F ord info).runAt now' s').2.live now'.instant key) := by
  by_cases htouch : cmd.touches key
  · by_cases hxx : ∃ v px, cmd = .set key v px .xx
    · obtain ⟨v, px, rfl⟩ := hxx
      exact ((onKey_set v px .xx trivial).mirror now now' hs hs' hm).2
    · have hxx : ∀ v px, cmd ≠ .set key v px .xx := fun v px h => hxx ⟨v, px, h⟩
      exact ((onKey_execute F ord info hlog htouch hrep hpop hxx).mirror now now' hs hs' hm).2
  · rw [execute_frame F ord info now cmd hs htouch, execute_frame F ord info now' cmd hs' htouch]
    exact hm

include hs in
theorem absent_execute (hlog : cmd.isLogged = true) (hpop : cmd.name ≠ "SPOP")
    (hnone : s.live now.instant key = none) (hrep : cmd.replaces key = false)
    (hcreates : cmd.creates key = false) :
    ((cmd.execute F ord info).runAt now s).2.live now.instant key = none := by
  by_cases htouch : cmd.touches key
  · by_cases hxx : ∃ v px, cmd = .set key v px .xx
    · obtain ⟨v, px, rfl⟩ := hxx
      rw [Command.execute, handleSet, runAt_bind_ok now (Store.existsKey_run hs now key), hnone,
        if_neg (by simp), if_pos (by simp), runAt_pure, Store.live_touch, hnone]
    · have hxx : ∀ v px, cmd ≠ .set key v px .xx := fun v px h => hxx ⟨v, px, h⟩
      have honKey := onKey_execute F ord info hlog htouch hrep hpop hxx
      exact honKey.stays_absent (by rw [hcreates]; exact Bool.false_ne_true) now hs hnone
  · rw [execute_frame F ord info now cmd hs htouch, hnone]

omit hs hs' in
theorem mirror_mset (entries : List (Str × Bytes)) {s s' : Store}
    (h : Mirror (s.live now.instant key) (s'.live now'.instant key) ∨
      ∃ entry ∈ entries, entry.1 = key) :
    Mirror (((handleMset entries).runAt now s).2.live now.instant key)
      (((handleMset entries).runAt now' s').2.live now'.instant key) := by
  induction entries generalizing s s' with
  | nil => exact h.resolve_right fun ⟨entry, hentry, _⟩ => List.not_mem_nil hentry
  | cons entry entries ih =>
    have hrun : ∀ (now : Reading) (s : Store), (handleMset (entry :: entries)).runAt now s =
        (handleMset entries).runAt now (s.put entry.1 (some (.string entry.2)) none) := by
      intro now s
      rw [handleMset, List.foldlM_cons, bind_assoc, runAt_bind_ok now (Store.set_run now ..)]
      rfl
    rw [hrun, hrun]
    apply ih
    rw [Store.live_put, Store.live_put]
    by_cases hkey : key = entry.1
    · rw [hkey, Function.update_self, Function.update_self]
      exact Or.inl (.present _ rfl)
    · rw [Function.update_of_ne hkey, Function.update_of_ne hkey]
      refine h.imp_right fun ⟨e, he, hek⟩ => ⟨e, ?_, hek⟩
      exact (List.mem_cons.mp he).resolve_left fun heq => hkey (by rw [← heq, hek])

include hs hs' in
theorem replace_execute (hrep : cmd.replaces key = true) :
    Mirror (((cmd.execute F ord info).runAt now s).2.live now.instant key)
      (((cmd.execute F ord info).runAt now' s').2.live now'.instant key) := by
  cases cmd with
  | set k v px condition =>
    obtain ⟨hcondition, hk⟩ := Bool.and_eq_true_iff.mp hrep
    obtain rfl := of_decide_eq_true hcondition
    obtain rfl := of_decide_eq_true hk
    have hrun : ∀ (now : Reading) {s : Store}, (s.Inv fun _ => True) →
        ((handleSet k v px .none).runAt now s).2.live now.instant k =
          liveOf now.instant (some (.string v)) (px.map fun ms => now.instant + fromMillis ms) := by
      intro now s hs
      rw [handleSet, runAt_bind_ok now (Store.existsKey_run hs now k), if_neg (by simp),
        if_neg (by simp), runAt_bind_ok now (Store.set_run now k v px), runAt_pure,
        Store.live_put_self]
    rw [Command.execute, hrun now hs, hrun now' hs']
    exact .fresh now.instant now'.instant _ px
  | mSet entries =>
    obtain ⟨entry, hentry, hkey⟩ := List.any_eq_true.mp hrep
    exact mirror_mset now now' entries (Or.inr ⟨entry, hentry, of_decide_eq_true hkey⟩)
  | del ks =>
    have hn := handleDel_run now s ks
    have hn' := handleDel_run now' s' ks
    have hmem : key ∈ ks := List.contains_iff_mem.mp hrep
    rw [Command.execute, hn, hn', Store.live_forget, Store.live_forget, if_pos hmem, if_pos hmem]
    exact .absent
  | flushAll =>
    rw [Command.execute, handleFlushall_run, handleFlushall_run]
    exact .absent
  | _ => cases hrep

end Execute

end FireRedis
