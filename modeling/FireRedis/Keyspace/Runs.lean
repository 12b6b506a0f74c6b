import FireRedis.Base.Simulation
import FireRedis.Keyspace.SortedSets
import FireRedis.Keyspace.Strings
import FireRedis.Server.Requests

/-!
# The server is the keyspace

Requests on any connections and calls of the evictor, one after the other and in
any order, are the keyspace at work: each reply is one that `Command.Does`
allows, time takes away what has expired, and clean-up does not show.
-/

namespace FireRedis
open Std Simulation

/-! ### One command -/

theorem execute_done (F : FloatText) (ord : IterOrder) (info : Bytes) (now : Reading) {s : Store}
    (hs : s.Inv StoredValue.WellFormed) {cmd : Command} (h : cmd.Spellable) :
    cmd.Done F ord info now s := by
  cases cmd with
  | ping => rfl
  | echo msg => rfl
  | quit => rfl
  | info => exact ⟨info, rfl⟩
  | get k => exact get_done F ord info now s k
  | set k v px condition => exact set_done F ord info now k v px condition
  | del ks => exact del_done F ord info now s ks
  | «exists» ks => exact exists_done F ord info now s ks
  | expire k ms => exact expire_done F ord info now s k ms
  | ttl k => exact ttl_done F ord info now s k
  | pttl k => exact pttl_done F ord info now s k
  | incr k => exact incr_done F ord info now k hs
  | decr k => exact decr_done F ord info now k hs
  | mGet ks => exact mGet_done F ord info now s ks
  | mSet entries => exact mSet_done F ord info now s entries
  | append k v => exact append_done F ord info now k hs v
  | strLen k => exact strLen_done F ord info now s k
  | type k => exact type_done F ord info now s k
  | keys pattern => exact keys_done F ord info now hs pattern
  | flushAll => exact flushAll_done F ord info now s
  | lPush k vals => exact lPush_done F ord info now hs k h
  | rPush k vals => exact rPush_done F ord info now hs k h
  | lPop k => exact lPop_done F ord info now hs k
  | rPop k => exact rPop_done F ord info now hs k
  | lLen k => exact lLen_done F ord info now k
  | lIndex k index => exact lIndex_done F ord info now k index
  | lRange k start stop => exact lRange_done F ord info now k start stop
  | sAdd k members => exact sAdd_done F ord info now hs k h
  | sRem k members => exact sRem_done F ord info now hs k members
  | sMembers k => exact sMembers_done F ord info now k
  | sIsMember k member => exact sIsMember_done F ord info now k member
  | sCard k => exact sCard_done F ord info now k
  | sPop k n => exact sPop_done F ord info now hs k n
  | hSet k fields => exact hSet_done F ord info now hs k h
  | hGet k field => exact hGet_done F ord info now k field
  | hDel k fields => exact hDel_done F ord info now hs k fields
  | hLen k => exact hLen_done F ord info now k
  | hExists k field => exact hExists_done F ord info now k field
  | hKeys k => exact hKeys_done F ord info now k
  | hVals k => exact hVals_done F ord info now k
  | hGetAll k => exact hGetAll_done F ord info now k
  | zAdd k entries => exact zAdd_done F ord info now hs k h
  | zRange k start stop => exact zRange_done F ord info now hs k start stop
  | zRevRange k start stop => exact zRevRange_done F ord info now hs k start stop
  | zScore k member => exact zScore_done F ord info now k member
  | zRem k members => exact zRem_done F ord info now hs k members
  | zCard k => exact zCard_done F ord info now k
  | zCount k minScore maxScore => exact zCount_done F ord info now hs k minScore maxScore

/-! ### One request -/

/-- What a frame asks for, or the reply that turns it away. -/
def requested (F : FloatText) : Value → Except Value Command
  | .array (some []) => .error (.error (Str.lit "ERR empty command"))
  | .array (some args) => tryFrom F args
  | _ => .error (.error (Str.lit "ERR invalid request format"))

theorem requested_ok {F : FloatText} {frame : Value} {cmd : Command}
    (h : requested F frame = .ok cmd) : ∃ args, frame = .array (some args) ∧
      tryFrom F args = .ok cmd := by
  unfold requested at h
  split at h
  · cases h
  · exact ⟨_, rfl, h⟩
  · cases h

theorem respond_turned_away {F : FloatText} {frame reply : Value}
    (h : requested F frame = .error reply) (ord : IterOrder) (info : Bytes) :
    respond F ord info frame = pure reply := by
  cases frame with
  | array items =>
    cases items with
    | none =>
      rw [← Except.error.inj h]
      rfl
    | some args =>
      cases args with
      | nil =>
        rw [← Except.error.inj h]
        rfl
      | cons arg args =>
        have hparse : tryFrom F (arg :: args) = .error reply := h
        simp only [respond, hparse]
  | _ =>
    rw [← Except.error.inj h]
    rfl

/-- A request and how it ended. -/
abbrev Exchange := Turn × Except Panic Value

/-- Time passes up to the request, and then its command does what it says. -/
def Keyspace.Answers (F : FloatText) (D : Keyspace) (e : Exchange) (D' : Keyspace) : Prop :=
  match requested F e.1.frame with
  | .ok cmd => cmd.Does F e.1.now.instant (D.later e.1.now.instant) (e.2, D')
  | .error reply => (e.2, D') = (.ok reply, D.later e.1.now.instant)

theorem keyspace_later (s : Store) {t t' : Instant} (h : t ≤ t') :
    s.keyspace t' = (s.keyspace t).later t' := by
  funext key
  rw [Store.keyspace, Dataset.keyspace, Store.live_later s h, Keyspace.later, Store.keyspace,
    Dataset.keyspace]
  cases s.live t key with
  | none => rfl
  | some e =>
    cases hd : e.deadline.all fun d => decide (t' < d) <;>
      simp [Option.filter, Item.still, Entry.item, hd]

/-! ### Runs -/

/-- A request on some connection, or a call of the evictor. -/
inductive Act where
  | request (turn : Turn)
  | evict (now : Reading)

namespace Act

def instant : Act → Instant
  | request turn => turn.now.instant
  | evict now => now.instant

def step (F : FloatText) (s : Store) : Act → Option Exchange × Store
  | request turn => (some (turn, (turn.run F s).1), (turn.run F s).2)
  | evict now => (none, (Store.evictExpired.runAt now s).2)

end Act

/-- From the instant on, clients see the keyspace, less what expires. -/
structure Shows (t : Instant) (s : Store) (D : Keyspace) : Prop where
  inv : s.Inv StoredValue.WellFormed
  later : ∀ t', t ≤ t' → s.keyspace t' = D.later t'

theorem shows_keyspace {s : Store} (hs : s.Inv StoredValue.WellFormed) (t : Instant) :
    Shows t s (s.keyspace t) := ⟨hs, fun _ => keyspace_later s⟩

section Steps

variable {F : FloatText} {t : Instant} {s : Store} {D : Keyspace} (h : Shows t s D)
include h

theorem request_answered (turn : Turn) (ht : t ≤ turn.now.instant) :
    D.Answers F (turn, (turn.run F s).1) ((turn.run F s).2.keyspace turn.now.instant) ∧
      (turn.run F s).2.Inv StoredValue.WellFormed := by
  have hD := h.later turn.now.instant ht
  rw [Keyspace.Answers, Turn.run, ← hD]
  cases hreq : requested F turn.frame with
  | ok cmd =>
    obtain ⟨args, hframe, hparse⟩ := requested_ok hreq
    rw [hframe, respond_parsed F turn.ord turn.info hparse]
    exact ⟨execute_done F turn.ord turn.info turn.now h.inv (spellable_of_parse hparse),
      (keeps_parsed turn.ord turn.info hparse turn.now s h.inv).1⟩
  | error reply =>
    rw [respond_turned_away hreq]
    exact ⟨rfl, h.inv⟩

theorem act_allowed (a : Act) (ht : t ≤ a.instant) : ∃ D',
    Allows (Keyspace.Answers F) D (a.step F s).1.toList D' ∧ Shows a.instant (a.step F s).2 D' := by
  cases a with
  | request turn =>
    obtain ⟨hanswers, hinv⟩ := request_answered (F := F) h turn ht
    exact ⟨_, .cons hanswers (.nil _), shows_keyspace hinv turn.now.instant⟩
  | evict now =>
    refine ⟨D, .nil D, ?_, fun t' ht' => ?_⟩
    · show (Store.evictExpired.runAt now s).2.Inv _
      rw [evictExpired_snd]
      exact Store.inv_evicted h.inv now.instant
    · show (Store.evictExpired.runAt now s).2.keyspace t' = _
      have hsame := Store.live_eq_later ht' (Store.live_evicted h.inv now.instant)
      rw [evictExpired_snd, ← h.later t' (Nat.le_trans ht ht'), Store.keyspace, hsame]

end Steps

section Runs

variable {F : FloatText} {clock : Reading → Prop}

/-- Requests on any connections and calls of the evictor, in any order, from any
store that a server can reach: the replies are those that the keyspace of the
store allows for the requests alone, and what clients see afterwards is the
keyspace that they leave. -/
theorem server_is_keyspace (s : Store) (hs : Reachable F clock s) (t : Instant) (acts : List Act)
    (hmono : acts.Pairwise fun a b => a.instant ≤ b.instant) (ht : ∀ a ∈ acts, t ≤ a.instant) :
    ∃ D, Allows (Keyspace.Answers F) (s.keyspace t) (events (Act.step F) acts s).1 D ∧
      ∀ t', t ≤ t' → (∀ a ∈ acts, a.instant ≤ t') →
        (events (Act.step F) acts s).2.keyspace t' = D.later t' := by
  have hstep : ∀ a ∈ acts, ∀ t s D, Shows t s D → t ≤ a.instant → ∃ D',
      Allows (Keyspace.Answers F) D (a.step F s).1.toList D' ∧ Shows a.instant (a.step F s).2 D' :=
    fun a _ _ _ _ h => act_allowed h a
  obtain ⟨D, hallows, u, hu, hshows⟩ :=
    allows_events hstep hmono ht (shows_keyspace (reachable_inv hs) t)
  refine ⟨D, hallows, fun t' hle hall => hshows.later t' ?_⟩
  rcases hu with rfl | ⟨a, ha, rfl⟩
  · exact hle
  · exact hall a ha

/-- Two values pushed, with the evictor before and after. -/
theorem server_is_keyspace_pushed :
    let push : Turn := ⟨commandValue "RPUSH" [Str.utf8 "k", Str.utf8 "a", Str.utf8 "b"], .sorted,
      [], ⟨3, 0⟩⟩
    ∃ D, Allows (Keyspace.Answers bitText) (Store.empty.keyspace 0) [(push, .ok (count 2))] D ∧
      D.later 7 (Str.lit "k") = some ⟨.list [Str.utf8 "a", Str.utf8 "b"], none⟩ := by
  intro push
  have hempty : Reachable bitText (fun _ => True) Store.empty := .empty
  obtain ⟨D, hallows, hlater⟩ := server_is_keyspace Store.empty hempty 0
    [.evict ⟨2, 0⟩, .request push, .evict ⟨5, 0⟩] (by simp [Act.instant, push])
    (fun _ _ => Nat.zero_le _)
  refine ⟨D, hallows, ?_⟩
  rw [← hlater 7 (Nat.zero_le _) (by simp [Act.instant, push])]
  rfl

end Runs

end FireRedis
