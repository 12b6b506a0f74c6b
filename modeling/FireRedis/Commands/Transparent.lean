import FireRedis.Commands.Capabilities
import FireRedis.Store.Keeps

/-!
# Expired keys are never seen

A command gives the same reply and the same new dataset on stores with the same
live entries, whatever expired keys are still in their maps; the one exception
is the count that DEL replies. Calls of the evictor therefore change nothing in
any sequential run.
-/

namespace FireRedis
open Std

section Execute

variable (F : FloatText) (ord : IterOrder) (info : Bytes) (now : Reading)

theorem handleDel_run (s : Store) (ks : List Str) :
    (handleDel ks).runAt now s = (.ok (count (s.forgotten ks)), s.forget ks) := by
  rw [handleDel, runAt_bind_ok _ (Store.del_run now s ks)]
  rfl

theorem handleFlushall_run (s : Store) : handleFlushall.runAt now s = (.ok ok, Store.empty) := by
  rw [handleFlushall, runAt_bind_ok _ (Store.flushAll_run now s)]
  rfl

def keysReply (ord : IterOrder) (s : Store) : Value :=
  bulkArray ((((ord.data s.data).map Prod.fst).mergeSort fun a b => (compare a b).isLE).map
    Str.bytes)

theorem handleKeys_run (s : Store) : (handleKeys ord (Str.lit "*")).runAt now s =
    (.ok (keysReply ord (s.evicted now.instant)), s.evicted now.instant) := by
  rw [handleKeys, if_neg (by simp), runAt_bind_ok _ (Store.keys_run now ord)]
  rfl

variable {P : StoredValue → Prop} (hP : Closed P)
include hP

theorem keeps_execute (cmd : Command) (hadd : ∀ k, cmd = .sAdd k [] → P (.set ∅)) :
    Keeps P (cmd.execute F ord info) := by
  cases hwhole : cmd.isWhole with
  | false => exact Keeps.within (within_execute hP F ord info cmd hwhole hadd)
  | true =>
    cases cmd with
    | del ks =>
      apply Keeps.forget fun _ _ => ks
      intro now s
      have hm := handleDel_run now s ks
      rw [Command.execute, hm]
    | keys pattern =>
      by_cases hpat : pattern = Str.lit "*"
      · apply Keeps.forget fun now s => s.expiredKeys now.instant
        intro now s
        rw [Command.execute, hpat, handleKeys_run]
        rfl
      · rw [Command.execute, handleKeys, if_pos hpat]
        exact Keeps.pure _
    | flushAll =>
      intro now s hs
      rw [Command.execute, handleFlushall_run]
      exact ⟨Store.inv_empty P, fun key d hd => by simp [Store.empty] at hd⟩
    | _ => cases hwhole

theorem inv_execute (cmd : Command) (hadd : ∀ k, cmd = .sAdd k [] → P (.set ∅)) {s : Store}
    (hs : s.Inv P) : ((cmd.execute F ord info).runAt now s).2.Inv P :=
  (keeps_execute F ord info hP cmd hadd now s hs).1

omit hP in
theorem execute_info (info' : Bytes) (cmd : Command) (h : cmd ≠ .info) :
    cmd.execute F ord info = cmd.execute F ord info' := by
  cases cmd with
  | info => exact absurd rfl h
  | _ => rfl

/-- Stores with the same live entries: the same reply, that of DEL excepted, and
the same live entries afterwards. -/
theorem execute_live (info' : Bytes) (cmd : Command) (hadd : ∀ k, cmd = .sAdd k [] → P (.set ∅))
    {s₁ s₂ : Store} (h₁ : s₁.Inv P) (h₂ : s₂.Inv P)
    (hl : s₁.live now.instant = s₂.live now.instant) :
    (cmd ≠ .info → (∀ ks, cmd ≠ .del ks) → ((cmd.execute F ord info).runAt now s₁).1 =
        ((cmd.execute F ord info').runAt now s₂).1) ∧
      ((cmd.execute F ord info).runAt now s₁).2.live now.instant =
        ((cmd.execute F ord info').runAt now s₂).2.live now.instant := by
  cases hwhole : cmd.isWhole with
  | false =>
    by_cases hinfo : cmd = .info
    · rw [hinfo]
      exact ⟨fun h => absurd rfl h, hl⟩
    · have h := Within.live_eq now (within_execute hP F ord info' cmd hwhole hadd) h₁ h₂ hl
      rw [execute_info F ord info info' cmd hinfo]
      exact ⟨fun _ _ => h.1, h.2⟩
  | true =>
    have hinfo : cmd ≠ .info := by
      rintro rfl
      cases hwhole
    rw [execute_info F ord info info' cmd hinfo]
    cases cmd with
    | del ks =>
      have hm₁ := handleDel_run now s₁ ks
      have hm₂ := handleDel_run now s₂ ks
      rw [Command.execute, hm₁, hm₂]
      refine ⟨fun _ h => absurd rfl (h ks), funext fun key => ?_⟩
      rw [Store.live_forget, Store.live_forget, hl]
    | keys pattern =>
      by_cases hpat : pattern = Str.lit "*"
      · rw [Command.execute, hpat, handleKeys_run, handleKeys_run, Store.evicted_eq h₁ h₂ hl]
        exact ⟨fun _ _ => rfl, rfl⟩
      · rw [Command.execute, handleKeys, if_pos hpat]
        exact ⟨fun _ _ => rfl, hl⟩
    | flushAll =>
      rw [Command.execute, handleFlushall_run, handleFlushall_run]
      exact ⟨fun _ _ => rfl, rfl⟩
    | _ => cases hwhole

omit hP in
theorem execute_quiet (cmd : Command) (hw : cmd.writes = false) {s : Store}
    (hs : s.Inv fun _ => True) :
    ((cmd.execute F ord info).runAt now s).2.live now.instant = s.live now.instant := by
  cases hwhole : cmd.isWhole with
  | false =>
    have h := within_execute Closed.all F ord info cmd hwhole fun _ _ => trivial
    refine (Within.effect now h hs).quiet ?_
    simp [Command.caps, hw]
  | true =>
    cases cmd with
    | keys pattern =>
      by_cases hpat : pattern = Str.lit "*"
      · rw [Command.execute, hpat, handleKeys_run]
        exact Store.live_evicted hs now.instant
      · rw [Command.execute, handleKeys, if_pos hpat]
        rfl
    | del ks => cases hw
    | flushAll => cases hw
    | _ => cases hwhole

omit hP in
theorem execute_returns (cmd : Command) (hp : cmd.mayPanic = false) {s : Store}
    (hs : s.Inv fun _ => True) : ∃ reply, ((cmd.execute F ord info).runAt now s).1 = .ok reply := by
  cases hwhole : cmd.isWhole with
  | false =>
    have h := within_execute Closed.all F ord info cmd hwhole fun _ _ => trivial
    refine Within.returns now h ?_ hs
    simp [Command.caps, hp]
  | true =>
    cases cmd with
    | del ks =>
      have hm := handleDel_run now s ks
      exact ⟨count (s.forgotten ks), by rw [Command.execute, hm]⟩
    | flushAll => exact ⟨ok, by rw [Command.execute, handleFlushall_run]⟩
    | keys pattern =>
      by_cases hpat : pattern = Str.lit "*"
      · exact ⟨keysReply ord (s.evicted now.instant), by rw [Command.execute, hpat, handleKeys_run]⟩
      · exact ⟨_, by rw [Command.execute, handleKeys, if_pos hpat, runAt_pure]⟩
    | _ => cases hwhole

end Execute

/-! ### Sequential runs -/

/-- The entries still live at `t'`, given those live at an earlier `t`. -/
theorem Store.live_later (s : Store) {t t' : Instant} (h : t ≤ t') (key : Str) :
    s.live t' key = (s.live t key).filter fun e => e.deadline.all fun d => t' < d := by
  unfold Store.live
  cases s.data[key]? with
  | none => rfl
  | some value =>
    cases s.expirations[key]? with
    | none => simp [liveOf, Option.filter]
    | some d =>
      by_cases hd : d ≤ t
      · simp [liveOf, hd, hd.trans h]
      · by_cases hd' : d ≤ t'
        · simp [liveOf, hd, hd', Option.filter]
        · simp [liveOf, hd, hd', Option.filter]

theorem Store.live_eq_later {s₁ s₂ : Store} {t t' : Instant} (h : t ≤ t')
    (hl : s₁.live t = s₂.live t) : s₁.live t' = s₂.live t' := by
  funext key
  rw [Store.live_later s₁ h, Store.live_later s₂ h, hl]

/-- A command of a client or a call of the background evictor, at a clock reading. -/
inductive Event where
  | command (cmd : Command) (now : Reading)
  | evict (now : Reading)

namespace Event

def instant : Event → Instant
  | command _ now => now.instant
  | evict now => now.instant

def isCommand : Event → Bool
  | command .. => true
  | evict _ => false

end Event

abbrev Transcript := List (Command × Except Panic Value)

def runEvents (F : FloatText) (ord : IterOrder) (info : Bytes) :
    List Event → Store → Transcript × Store
  | [], s => ([], s)
  | .command cmd now :: events, s =>
    let (reply, s') := (cmd.execute F ord info).runAt now s
    let (replies, s'') := runEvents F ord info events s'
    ((cmd, reply) :: replies, s'')
  | .evict now :: events, s => runEvents F ord info events (Store.evictExpired.runAt now s).2

/-- A transcript without the replies of INFO and DEL. -/
def visible (replies : Transcript) : List (Command × Option (Except Panic Value)) :=
  replies.map fun r =>
    match r.1 with
    | .info => (r.1, none)
    | .del _ => (r.1, none)
    | _ => (r.1, some r.2)

section Runs

variable (F : FloatText) (ord : IterOrder) (info info' : Bytes)

theorem evictExpired_snd (now : Reading) (s : Store) :
    (Store.evictExpired.runAt now s).2 = s.evicted now.instant := by
  obtain ⟨m, hm⟩ := Store.evictExpired_run now s
  rw [hm]
  rfl

/-- Two runs over stores with the same live entries, one with and one without
its calls of the evictor. -/
theorem runEvents_live (events : List Event)
    (hmono : events.Pairwise fun a b => a.instant ≤ b.instant) (t : Instant)
    (ht : ∀ e ∈ events, t ≤ e.instant) {s₁ s₂ : Store} (h₁ : s₁.Inv fun _ => True)
    (h₂ : s₂.Inv fun _ => True) (hl : s₁.live t = s₂.live t) :
    visible (runEvents F ord info events s₁).1 =
        visible (runEvents F ord info' (events.filter Event.isCommand) s₂).1 ∧
      ∀ t', t ≤ t' → (∀ e ∈ events, e.instant ≤ t') →
        (runEvents F ord info events s₁).2.live t' =
          (runEvents F ord info' (events.filter Event.isCommand) s₂).2.live t' := by
  induction events generalizing t s₁ s₂ with
  | nil => exact ⟨rfl, fun t' htt' _ => Store.live_eq_later htt' hl⟩
  | cons e events ih =>
    obtain ⟨hle, htail⟩ := List.pairwise_cons.mp hmono
    have hte := ht e (List.mem_cons_self ..)
    have hnow := Store.live_eq_later hte hl
    cases e with
    | command cmd now =>
      rw [List.filter_cons_of_pos rfl]
      have hstep := execute_live F ord info now Closed.all info' cmd (fun _ _ => trivial) h₁ h₂ hnow
      have i₁ := inv_execute F ord info now Closed.all cmd (fun _ _ => trivial) h₁
      have i₂ := inv_execute F ord info' now Closed.all cmd (fun _ _ => trivial) h₂
      obtain ⟨hreplies, hlive⟩ := ih htail now.instant hle i₁ i₂ hstep.2
      refine ⟨?_, fun t' htt' hall => hlive t' (hall _ (List.mem_cons_self ..)) fun e he =>
        hall e (List.mem_cons_of_mem _ he)⟩
      rw [runEvents, runEvents]
      simp only [visible, List.map_cons] at hreplies ⊢
      rw [hreplies]
      congr 1
      cases cmd with
      | del ks => rfl
      | info => rfl
      | _ => exact congrArg (fun r => (_, some r)) (hstep.1 (by simp) fun ks => by simp)
    | evict now =>
      rw [List.filter_cons_of_neg (by simp [Event.isCommand]), runEvents, evictExpired_snd]
      have hevict : (s₁.evicted now.instant).live now.instant = s₂.live now.instant := by
        rw [Store.live_evicted h₁]
        exact hnow
      obtain ⟨hreplies, hlive⟩ := ih htail now.instant hle
        (Store.inv_evicted h₁ now.instant) h₂ hevict
      exact ⟨hreplies, fun t' htt' hall => hlive t' (hall _ (List.mem_cons_self ..)) fun e he =>
        hall e (List.mem_cons_of_mem _ he)⟩

/-- Evicting before a command, or anywhere in a sequential run, changes neither
the replies (those of INFO and DEL excepted) nor the live dataset. -/
theorem eviction_transparent (s : Store) (hs : s.Inv fun _ => True) :
    (∀ (now : Reading) (cmd : Command), cmd ≠ .info →
      let evicted := (Store.evictExpired.runAt now s).2
      let r := (cmd.execute F ord info).runAt now s
      let r' := (cmd.execute F ord info').runAt now evicted
      ((∀ ks, cmd ≠ .del ks) → r.1 = r'.1) ∧ r.2.live now.instant = r'.2.live now.instant) ∧
    ∀ events : List Event, (events.Pairwise fun a b => a.instant ≤ b.instant) →
      visible (runEvents F ord info events s).1 =
          visible (runEvents F ord info' (events.filter Event.isCommand) s).1 ∧
        ∀ t, (∀ e ∈ events, e.instant ≤ t) → (runEvents F ord info events s).2.live t =
          (runEvents F ord info' (events.filter Event.isCommand) s).2.live t := by
  refine ⟨fun now cmd hinfo => ?_, fun events hmono => ?_⟩
  · dsimp only
    rw [evictExpired_snd]
    have h := execute_live F ord info now Closed.all info' cmd (fun _ _ => trivial) hs
      (Store.inv_evicted hs now.instant) (Store.live_evicted hs now.instant).symm
    exact ⟨h.1 hinfo, h.2⟩
  · have h := runEvents_live F ord info info' events hmono 0 (fun _ _ => Nat.zero_le _) hs hs rfl
    exact ⟨h.1, fun t ht => h.2 t (Nat.zero_le t) ht⟩

/-- A key whose deadline has passed, still in both maps. -/
def staleStore : Store := Store.empty.put (Str.lit "k") (some (.string (Str.utf8 "v"))) (some 5)

theorem inv_staleStore : staleStore.Inv fun _ => True :=
  Store.inv_put (Store.inv_empty _) _ (fun _ _ => trivial) (fun h => by cases h)

theorem eviction_transparent_stale :
    let F : FloatText := noFloats
    let push := (Command.rPush (Str.lit "k") [Str.utf8 "w"]).execute F .sorted []
    let evicted := (Store.evictExpired.runAt ⟨10, 0⟩ staleStore).2
    (push.runAt ⟨10, 0⟩ staleStore).1 = (push.runAt ⟨10, 0⟩ evicted).1 ∧
      visible (runEvents F .sorted [] [.evict ⟨7, 0⟩, .command (.get (Str.lit "k")) ⟨10, 0⟩]
        staleStore).1 =
      visible (runEvents F .sorted [] [.command (.get (Str.lit "k")) ⟨10, 0⟩] staleStore).1 := by
  intro F push evicted
  have h := eviction_transparent F .sorted [] [] staleStore inv_staleStore
  refine ⟨(h.1 ⟨10, 0⟩ (.rPush (Str.lit "k") [Str.utf8 "w"]) (by simp)).1 (by simp), ?_⟩
  exact (h.2 [.evict ⟨7, 0⟩, .command (.get (Str.lit "k")) ⟨10, 0⟩]
    (by simp [Event.instant])).1

end Runs

end FireRedis
