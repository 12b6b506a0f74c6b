import FireRedis.Keyspace.Runs
import FireRedis.Server.Frames

/-!
# Clients that share the keyspace

Clients send commands as bytes, and the server executes them one by one, those
of different clients in any order. A panic ends the connection of its client.
Requests and replies arrive as they were sent, however the bytes are cut up.
-/

namespace FireRedis
open Std Incremental Simulation

/-- A command of a client, and the circumstances of its execution. -/
structure Invocation where
  client : ℕ
  cmd : Command
  ord : IterOrder
  info : Bytes
  now : Reading

abbrev Ending := Invocation × Except Panic Value

namespace Invocation

variable (F : FloatText)

def frame (c : Invocation) : Value := .array (some (c.cmd.request F))

def turn (c : Invocation) : Turn := ⟨c.frame F, c.ord, c.info, c.now⟩

/-- The clients whose connection has ended, and the store. -/
def step (st : List ℕ × Store) (c : Invocation) : Option Ending × List ℕ × Store :=
  if c.client ∈ st.1 then (none, st)
  else
    match (c.turn F).run F st.2 with
    | (.ok reply, s) => (some (c, .ok reply), st.1, s)
    | (.error p, s) => (some (c, .error p), c.client :: st.1, s)

end Invocation

/-- The calls of one client. -/
def callsOf (k : ℕ) (calls : List Invocation) : List Invocation :=
  calls.filter fun c => c.client = k

def endingsOf (k : ℕ) (log : List Ending) : List Ending := log.filter fun e => e.1.client = k

def repliesOf (k : ℕ) (log : List Ending) : List Value :=
  (endingsOf k log).filterMap fun e => e.2.toOption

/-- Calls end in the order in which they were made, up to the first panic. -/
def EndInOrder : List Invocation → List Ending → Prop
  | [], log => log = []
  | c :: calls, log => ∃ r rest, log = (c, r) :: rest ∧
    (∀ v, r = .ok v → EndInOrder calls rest) ∧ ∀ p, r = .error p → rest = []

/-- The call is for its command, up to scores of equal rank. -/
def Keyspace.Obeys (F : FloatText) (D : Keyspace) (e : Ending) (D' : Keyspace) : Prop :=
  ∃ cmd, e.1.cmd.Alike cmd ∧
    cmd.Does F e.1.now.instant (D.later e.1.now.instant) (e.2, D')

section Steps

variable {F : FloatText} {gone : List ℕ} {s : Store} {c : Invocation}

theorem step_gone (h : c.client ∈ gone) : c.step F (gone, s) = (none, gone, s) := if_pos h

theorem step_run (h : c.client ∉ gone) : ∃ gone',
    c.step F (gone, s) = (some (c, ((c.turn F).run F s).1), gone', ((c.turn F).run F s).2) ∧
      (∀ v, ((c.turn F).run F s).1 = .ok v → gone' = gone) ∧
      ∀ p, ((c.turn F).run F s).1 = .error p → gone' = c.client :: gone := by
  rw [Invocation.step, if_neg h]
  rcases (c.turn F).run F s with ⟨p | reply, s'⟩
  · exact ⟨_, rfl, fun _ h => (nomatch h), fun _ _ => rfl⟩
  · exact ⟨_, rfl, fun _ _ => rfl, fun _ h => (nomatch h)⟩

/-! ### The keyspace explains the calls -/

theorem call_obeyed (hF : F.RoundTrips) (hspell : c.cmd.Spellable) {t : Instant} {D : Keyspace}
    (h : Shows t s D) (ht : t ≤ c.now.instant) :
    D.Obeys F (c, ((c.turn F).run F s).1) (((c.turn F).run F s).2.keyspace c.now.instant) ∧
      ((c.turn F).run F s).2.Inv StoredValue.WellFormed := by
  obtain ⟨hanswers, hinv⟩ := request_answered (F := F) h (c.turn F) ht
  obtain ⟨cmd, hparse, halike⟩ := parse_request hF hspell
  have hreq : requested F (c.turn F).frame = .ok cmd := hparse
  rw [Keyspace.Answers, hreq] at hanswers
  exact ⟨⟨cmd, halike, hanswers⟩, hinv⟩

theorem call_allowed (hF : F.RoundTrips) (hspell : c.cmd.Spellable) {t : Instant} {D : Keyspace}
    (h : Shows t s D) (ht : t ≤ c.now.instant) : ∃ D',
    Allows (Keyspace.Obeys F) D (c.step F (gone, s)).1.toList D' ∧
      Shows c.now.instant (c.step F (gone, s)).2.2 D' := by
  by_cases hgone : c.client ∈ gone
  · rw [step_gone hgone]
    exact ⟨D, .nil D, h.inv, fun t' ht' => h.later t' (Nat.le_trans ht ht')⟩
  · obtain ⟨gone', hstep, -⟩ := step_run (F := F) (s := s) hgone
    obtain ⟨hobeys, hinv⟩ := call_obeyed hF hspell h ht
    rw [hstep]
    exact ⟨_, .cons hobeys (.nil _), shows_keyspace hinv c.now.instant⟩

end Steps

/-! ### The calls of one client -/

section OneClient

variable {F : FloatText} {k : ℕ}

theorem endings_gone {gone : List ℕ} (h : k ∈ gone) (calls : List Invocation) (s : Store) :
    endingsOf k (events (Invocation.step F) calls (gone, s)).1 = [] := by
  induction calls generalizing gone s with
  | nil => rfl
  | cons c calls ih =>
    rw [events, endingsOf, List.filter_append]
    by_cases hgone : c.client ∈ gone
    · rw [step_gone hgone]
      exact ih h s
    · obtain ⟨gone', hstep, hok, herror⟩ := step_run (F := F) (s := s) hgone
      have hclient : c.client ≠ k := fun hk => hgone (hk ▸ h)
      have hstill : k ∈ gone' := by
        rcases hr : ((c.turn F).run F s).1 with p | v
        · rw [herror p hr]
          exact List.mem_cons_of_mem _ h
        · rw [hok v hr]
          exact h
      rw [hstep]
      simp only [Option.toList_some, List.filter_cons, hclient, decide_false, List.filter_nil]
      exact ih hstill _

theorem ends_in_order {gone : List ℕ} (h : k ∉ gone) (calls : List Invocation) (s : Store) :
    EndInOrder (callsOf k calls)
      (endingsOf k (events (Invocation.step F) calls (gone, s)).1) := by
  induction calls generalizing gone s with
  | nil => rfl
  | cons c calls ih =>
    rw [events, endingsOf, List.filter_append, callsOf, List.filter_cons]
    by_cases hgone : c.client ∈ gone
    · have hclient : c.client ≠ k := fun hk => h (hk ▸ hgone)
      rw [step_gone hgone]
      simp only [hclient, decide_false, Bool.false_eq_true, if_false]
      exact ih h s
    · obtain ⟨gone', hstep, hok, herror⟩ := step_run (F := F) (s := s) hgone
      rw [hstep]
      by_cases hk : c.client = k
      · simp only [Option.toList_some, List.filter_cons, hk, decide_true, if_true, List.filter_nil,
          List.singleton_append]
        refine ⟨_, _, rfl, fun v hv => ?_, fun p hp => ?_⟩
        · rw [hok v hv]
          exact ih h _
        · rw [herror p hp, hk]
          exact endings_gone (List.mem_cons_self ..) calls _
      · simp only [Option.toList_some, List.filter_cons, hk, decide_false, Bool.false_eq_true,
          if_false, List.filter_nil, List.nil_append]
        apply ih
        rcases hr : ((c.turn F).run F s).1 with p | v
        · rw [herror p hr, List.mem_cons, not_or]
          exact ⟨Ne.symm hk, h⟩
        · rw [hok v hr]
          exact h

end OneClient

/-! ### Requests and replies on the wire -/

/-- However a stream of values is cut up, they are read as they were written. -/
theorem feed_encoded {values : List Value} (hvalues : ∀ v ∈ values, v.Fits ∧ v.NoCrlf)
    {chunks : List Bytes} (hchunks : chunks.flatten = values.flatMap encode) :
    feed decode [] chunks = (values.map norm, .pending []) := by
  rw [feed_eq_drain decode_lawful (by omega) chunks [] decode_nil, List.nil_append, hchunks]
  clear hchunks
  induction values with
  | nil => exact drain_more decode_lawful decode_nil
  | cons v values ih =>
    obtain ⟨hfits, hline⟩ := hvalues v (List.mem_cons_self ..)
    have hdecode := decode_encode v hfits hline (values.flatMap encode)
    rw [List.flatMap_cons, drain_frame decode_lawful (by omega) hdecode,
      ih fun u hu => hvalues u (List.mem_cons_of_mem _ hu), List.map_cons]

section Wire

variable {F : FloatText}

theorem frame_line (c : Invocation) : (c.frame F).NoCrlf ∧ (c.frame F).Normal := by
  rw [Invocation.frame, Command.request, Value.NoCrlf, Value.Normal, Value.all_array,
    Value.all_array]
  have hbulk : ∀ v ∈ bulk (Str.utf8 c.cmd.name) :: (c.cmd.args F).map bulk, ∃ b, v = bulk b := by
    intro v hv
    rcases List.mem_cons.mp hv with rfl | hv
    · exact ⟨_, rfl⟩
    · obtain ⟨b, -, rfl⟩ := List.mem_map.mp hv
      exact ⟨b, rfl⟩
  refine ⟨⟨trivial, fun v hv => ?_⟩, trivial, fun v hv => ?_⟩
  · obtain ⟨b, rfl⟩ := hbulk v hv
    exact trivial
  · obtain ⟨b, rfl⟩ := hbulk v hv
    exact trivial

theorem name_line (cmd : Command) : ¬ crlf <:+: Str.utf8 cmd.name := by
  cases cmd <;> rw [Command.name] <;> decide

theorem reply_line {calls : List Invocation} {st : List ℕ × Store} {c : Invocation} {v : Value}
    (h : (c, .ok v) ∈ (events (Invocation.step F) calls st).1) : v.NoCrlf := by
  obtain ⟨c', -, ⟨gone, s⟩, hstep⟩ := label_of_mem h
  by_cases hgone : c'.client ∈ gone
  · rw [step_gone hgone] at hstep
    cases hstep
  · obtain ⟨gone', hrun, -⟩ := step_run (F := F) (s := s) hgone
    rw [hrun] at hstep
    obtain ⟨rfl, hreply⟩ := Prod.mk.inj (Option.some.inj hstep)
    have hname : ¬ NameHoldsCrlf (c'.frame F) := name_line c'.cmd
    exact respond_noCrlf F c'.ord c'.info c'.now hname (Prod.ext hreply rfl)

end Wire

/-! ### The whole server -/

section Server

variable {F : FloatText} {clock : Reading → Prop}

/-- Commands of any clients, executed one by one in any order that is in step with
the clock. The keyspace allows every ending, also to the clients whose connection
a panic has ended; each client gets the endings of its own commands in order; and
its requests and replies arrive as they were sent, however they are cut up. -/
theorem clients_share_keyspace (hF : F.RoundTrips) (s : Store) (hs : Reachable F clock s)
    (t : Instant) (calls : List Invocation)
    (hmono : calls.Pairwise fun c c' => c.now.instant ≤ c'.now.instant)
    (ht : ∀ c ∈ calls, t ≤ c.now.instant) (hspell : ∀ c ∈ calls, c.cmd.Spellable)
    (hsent : ∀ c ∈ calls, (c.frame F).Fits)
    (hreplies : ∀ c v, (c, .ok v) ∈ (events (Invocation.step F) calls ([], s)).1 → v.Fits) :
    let log := (events (Invocation.step F) calls ([], s)).1
    (∃ D, Allows (Keyspace.Obeys F) (s.keyspace t) log D) ∧
    ∀ k, EndInOrder (callsOf k calls) (endingsOf k log) ∧
      (∀ chunks : List Bytes,
        chunks.flatten = ((callsOf k calls).map (Invocation.frame F)).flatMap encode →
        feed decode [] chunks = ((callsOf k calls).map (Invocation.frame F), .pending [])) ∧
      ∀ chunks : List Bytes, chunks.flatten = (repliesOf k log).flatMap encode →
        feed decode [] chunks = ((repliesOf k log).map norm, .pending []) := by
  intro log
  refine ⟨?_, fun k => ⟨ends_in_order List.not_mem_nil calls s, fun chunks hchunks => ?_,
    fun chunks hchunks => ?_⟩⟩
  · have hstep : ∀ c ∈ calls, ∀ t (st : List ℕ × Store) D, Shows t st.2 D → t ≤ c.now.instant →
        ∃ D', Allows (Keyspace.Obeys F) D (c.step F st).1.toList D' ∧
          Shows c.now.instant (c.step F st).2.2 D' :=
      fun c hc _ _ _ h => call_allowed hF (hspell c hc) h
    have hstart : Shows t (([], s) : List ℕ × Store).2 (s.keyspace t) :=
      shows_keyspace (reachable_inv hs) t
    obtain ⟨D, hallows, -⟩ := allows_events (R := fun t (st : List ℕ × Store) => Shows t st.2)
      hstep hmono ht hstart
    exact ⟨D, hallows⟩
  · have hframes : ∀ v ∈ (callsOf k calls).map (Invocation.frame F), v.Fits ∧ v.NoCrlf := by
      intro v hv
      obtain ⟨c, hc, rfl⟩ := List.mem_map.mp hv
      exact ⟨hsent c (List.mem_of_mem_filter hc), (frame_line c).1⟩
    have hnormal : ((callsOf k calls).map (Invocation.frame F)).map norm =
        (callsOf k calls).map (Invocation.frame F) := by
      rw [List.map_map]
      exact List.map_congr_left fun c _ => norm_of_normal _ (frame_line c).2
    rw [feed_encoded hframes hchunks, hnormal]
  · apply feed_encoded _ hchunks
    intro v hv
    obtain ⟨⟨c, r⟩, he, hr⟩ := List.mem_filterMap.mp hv
    have hmem := List.mem_of_mem_filter he
    cases r with
    | error p => cases hr
    | ok reply =>
      obtain rfl : reply = v := Option.some.inj hr
      exact ⟨hreplies c reply hmem, reply_line hmem⟩

/-- Two clients, and the first one's request cut after its first byte. -/
theorem clients_share_keyspace_two :
    let push : Invocation := ⟨1, .rPush (Str.lit "k") [Str.utf8 "a"], .sorted, [], ⟨3, 0⟩⟩
    let echo : Invocation := ⟨2, .echo (Str.utf8 "b"), .sorted, [], ⟨5, 0⟩⟩
    feed decode [] [(encode (push.frame bitText)).take 1, (encode (push.frame bitText)).drop 1] =
        ([push.frame bitText], .pending []) ∧
      ∃ D, Allows (Keyspace.Obeys bitText) (Store.empty.keyspace 0)
        [(push, .ok (count 1)), (echo, .ok (.bulkString (some (Str.utf8 "b"))))] D := by
  intro push echo
  have hempty : Reachable bitText (fun _ => True) Store.empty := .empty
  have hlog : (events (Invocation.step bitText) [push, echo] ([], Store.empty)).1 =
      [(push, .ok (count 1)), (echo, .ok (.bulkString (some (Str.utf8 "b"))))] := rfl
  have hfits : ∀ c ∈ [push, echo], (c.frame bitText).Fits := by
    intro c hc
    rcases List.mem_pair.mp hc with rfl | rfl <;>
      simp [push, echo, Invocation.frame, Command.request, Command.args, bulk, Value.Fits,
        Value.All, Value.AllItems, Value.FitsHere] <;> decide
  have hreplies : ∀ c v, (c, .ok v) ∈ (events (Invocation.step bitText) [push, echo]
      ([], Store.empty)).1 → v.Fits := by
    intro c v h
    rw [hlog] at h
    rcases List.mem_pair.mp h with h | h
    · rw [Except.ok.inj (Prod.mk.inj h).2]
      exact trivial
    · rw [Except.ok.inj (Prod.mk.inj h).2]
      simp [Value.Fits, Value.All, Value.FitsHere]
      decide
  have hall := clients_share_keyspace bitText_roundTrips Store.empty hempty 0 [push, echo]
    (by simp [push, echo]) (fun _ _ => Nat.zero_le _) (by simp [push, echo, Command.Spellable])
    hfits hreplies
  rw [hlog] at hall
  refine ⟨(hall.2 1).2.1 _ ?_, hall.1⟩
  rw [List.flatten_cons, List.flatten_cons, List.flatten_nil, List.append_nil,
    List.take_append_drop]
  exact (List.append_nil _).symm

end Server

end FireRedis
