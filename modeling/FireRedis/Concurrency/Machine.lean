import FireRedis.Base.Runs
import FireRedis.Persistence.Logged

/-!
# Connections, the AOF channel and the file

Every connection takes a decoded request and sends it on the AOF channel if it
is to be logged, executes it and sends the reply, in steps of their own
(server.rs, `handle_connection`). The AOF processor takes the commands off the
channel one by one and appends them (persistence/manager.rs,
`start_aof_processor`), and syncs the file as the policy says.
-/

namespace FireRedis
open System

inductive AofFsyncPolicy where
  | always
  | everySec
  | no

/-- Where a connection is with its request. The ticket is the position of the
request among the commands sent on the channel. -/
inductive Conn where
  | idle
  | taken (frame : Value) (ticket : Option ℕ)
  | answered (frame reply : Value) (ticket : Option ℕ)
  | closed

/-- The request that a connection is busy with, and its ticket. -/
def Conn.request : Conn → Option (Value × Option ℕ)
  | taken frame ticket => some (frame, ticket)
  | answered frame _ ticket => some (frame, ticket)
  | _ => none

/-- A panic ends the task of the connection. -/
def Conn.after (frame : Value) (ticket : Option ℕ) : Except Panic Value → Conn
  | .ok reply => .answered frame reply ticket
  | .error _ => .closed

/-- Where the AOF processor is with the command it has received. -/
inductive Hand where
  | empty
  | received (command : Value)
  | written (command : Value)

def Hand.unwritten : Hand → List Value
  | received command => [command]
  | _ => []

def Hand.unsynced : Hand → List Value
  | written command => [command]
  | _ => []

/-- Under `Always`, `append` goes on with a sync. -/
def Hand.afterWrite : AofFsyncPolicy → Value → Hand
  | .always, command => .written command
  | _, _ => .empty

/-- `synced` is what of the log has reached the disk. The commands sent on the
channel and the requests whose reply has been sent, each with its ticket, are
kept for the statements. -/
structure Machine (ι : Type) where
  store : Store
  fs : FileSystem
  synced : Bytes
  logged : List Value
  channel : List Value
  hand : Hand
  conns : ι → Conn
  acked : List (Value × Option ℕ)

inductive Action (ι : Type) where
  | take (c : ι) (src : Bytes)
  | execute (c : ι) (ord : IterOrder) (info : Bytes) (now : Reading)
  | reply (c : ι)
  | receive
  | write
  | sync
  | fsync

namespace Machine

variable {ι : Type} [DecidableEq ι]

section Step

variable (F : FloatText) (policy : AofFsyncPolicy) (w : AofWriter) (m : Machine ι)

def setConn (c : ι) (conn : Conn) : Machine ι :=
  { m with conns := Function.update m.conns c conn }

/-- `AofChannel::log`, for a request that is to be logged. -/
def send (frame : Value) : Machine ι :=
  { m with
    logged := m.logged ++ (logEntry frame).toList
    channel := m.channel ++ (logEntry frame).toList }

def step : Action ι → Option (Machine ι)
  | .take c src =>
    match m.conns c, decode src with
    | .idle, (.ok (some frame), _) =>
      some ((m.send frame).setConn c (.taken frame ((logEntry frame).map fun _ => m.logged.length)))
    | _, _ => none
  | .execute c ord info now =>
    match m.conns c with
    | .taken frame ticket =>
      let r := (respond F ord info frame).runAt now m.store
      some ({ m with store := r.2 }.setConn c (Conn.after frame ticket r.1))
    | _ => none
  | .reply c =>
    match m.conns c with
    | .answered frame _ ticket =>
      some ({ m with acked := m.acked ++ [(frame, ticket)] }.setConn c .idle)
    | _ => none
  | .receive =>
    match m.hand, m.channel with
    | .empty, command :: channel => some { m with channel := channel, hand := .received command }
    | _, _ => none
  -- `AofWriter::append`, up to its sync.
  | .write =>
    match m.hand with
    | .received command =>
      some { m with fs := w.append command m.fs, hand := Hand.afterWrite policy command }
    | _ => none
  | .sync =>
    match m.hand with
    | .written _ => some { m with synced := m.fs.contents w.file, hand := .empty }
    | _ => none
  -- The background task that syncs every second.
  | .fsync =>
    match policy with
    | .everySec => some { m with synced := m.fs.contents w.file }
    | _ => none

/-! ### What a step does -/

variable {F policy w m} {m' : Machine ι} {c : ι}

theorem step_take {src : Bytes} (h : step F policy w m (.take c src) = some m') :
    ∃ frame rest, m.conns c = .idle ∧ decode src = (.ok (some frame), rest) ∧
      m' = (m.send frame).setConn c
        (.taken frame ((logEntry frame).map fun _ => m.logged.length)) := by
  rw [step] at h
  split at h
  · exact ⟨_, _, ‹_›, ‹_›, (Option.some.inj h).symm⟩
  · cases h

theorem step_execute {ord : IterOrder} {info : Bytes} {now : Reading}
    (h : step F policy w m (.execute c ord info now) = some m') :
    ∃ frame ticket, m.conns c = .taken frame ticket ∧
      m' = { m with store := ((respond F ord info frame).runAt now m.store).2 }.setConn c
        (Conn.after frame ticket ((respond F ord info frame).runAt now m.store).1) := by
  rw [step] at h
  split at h
  · exact ⟨_, _, ‹_›, (Option.some.inj h).symm⟩
  · cases h

theorem step_reply (h : step F policy w m (.reply c) = some m') :
    ∃ frame reply ticket, m.conns c = .answered frame reply ticket ∧
      m' = { m with acked := m.acked ++ [(frame, ticket)] }.setConn c .idle := by
  rw [step] at h
  split at h
  · exact ⟨_, _, _, ‹_›, (Option.some.inj h).symm⟩
  · cases h

theorem step_receive (h : step F policy w m .receive = some m') :
    ∃ command channel, m.hand = .empty ∧ m.channel = command :: channel ∧
      m' = { m with channel := channel, hand := .received command } := by
  rw [step] at h
  split at h
  · exact ⟨_, _, ‹_›, ‹_›, (Option.some.inj h).symm⟩
  · cases h

theorem step_write (h : step F policy w m .write = some m') :
    ∃ command, m.hand = .received command ∧
      m' = { m with fs := w.append command m.fs, hand := Hand.afterWrite policy command } := by
  rw [step] at h
  split at h
  · exact ⟨_, ‹_›, (Option.some.inj h).symm⟩
  · cases h

theorem step_sync (h : step F policy w m .sync = some m') :
    ∃ command, m.hand = .written command ∧
      m' = { m with synced := m.fs.contents w.file, hand := .empty } := by
  rw [step] at h
  split at h
  · exact ⟨_, ‹_›, (Option.some.inj h).symm⟩
  · cases h

theorem step_fsync (h : step F policy w m .fsync = some m') :
    policy = .everySec ∧ m' = { m with synced := m.fs.contents w.file } := by
  cases policy with
  | everySec => exact ⟨rfl, (Option.some.inj h).symm⟩
  | always => cases h
  | no => cases h

end Step

/-- The machine that opens the log. -/
def start (path : PathBuf) (fs : FileSystem) : Machine ι where
  store := .empty
  fs := (AofWriter.new path fs).2
  synced := (AofWriter.new path fs).2.contents (AofWriter.new path fs).1.file
  logged := []
  channel := []
  hand := .empty
  conns _ := .idle
  acked := []

/-! ### Where the requests are among the commands sent -/

/-- A request without a ticket is not to be logged; one with a ticket is the
command sent at that position. -/
def Placed (logged : List Value) : Value × Option ℕ → Prop
  | (frame, none) => logEntry frame = none
  | (frame, some n) => logged[n]? = some frame

theorem Placed.append {logged : List Value} {r : Value × Option ℕ} (h : Placed logged r)
    (more : List Value) : Placed (logged ++ more) r := by
  obtain ⟨frame, _ | n⟩ := r
  · exact h
  · have hlt : n < logged.length := (List.getElem?_eq_some_iff.mp h).1
    exact (List.getElem?_append_left hlt).trans h

theorem Placed.lt {logged : List Value} {r : Value × Option ℕ} {n : ℕ} (h : Placed logged r)
    (hn : r.2 = some n) : n < logged.length := by
  obtain ⟨frame, ticket⟩ := r
  obtain rfl : ticket = some n := hn
  exact (List.getElem?_eq_some_iff.mp h).1

/-- The requests of the connections and those answered are where their tickets
say, and no two of them have one ticket. -/
structure Ticketed (conns : ι → Conn) (logged : List Value) (acked : List (Value × Option ℕ)) :
    Prop where
  busy : ∀ c r, (conns c).request = some r → Placed logged r
  answered : ∀ r ∈ acked, Placed logged r
  apart : ∀ c c' r r' n, (conns c).request = some r → (conns c').request = some r' →
    r.2 = some n → r'.2 = some n → c = c'
  unacked : ∀ c r n, (conns c).request = some r → r.2 = some n → n ∉ acked.filterMap Prod.snd
  once : (acked.filterMap Prod.snd).Nodup

section Tickets

variable {conns : ι → Conn} {logged : List Value} {acked : List (Value × Option ℕ)}

theorem after_request {frame : Value} {ticket : Option ℕ} {reply : Except Panic Value}
    {r : Value × Option ℕ} (h : (Conn.after frame ticket reply).request = some r) :
    r = (frame, ticket) := by
  cases reply with
  | ok reply => exact (Option.some.inj h).symm
  | error e => cases h

theorem request_update {c c' : ι} {conn : Conn} {r : Value × Option ℕ}
    (h : (Function.update conns c conn c').request = some r) :
    (c' = c ∧ conn.request = some r) ∨ (c' ≠ c ∧ (conns c').request = some r) := by
  by_cases hc : c' = c
  · subst hc
    rw [Function.update_self] at h
    exact Or.inl ⟨rfl, h⟩
  · rw [Function.update_of_ne hc] at h
    exact Or.inr ⟨hc, h⟩

/-- A connection goes on with its request, or lets it go. -/
theorem Ticketed.goOn {c : ι} {conn : Conn} (h : Ticketed conns logged acked)
    (hconn : ∀ r, conn.request = some r → (conns c).request = some r) :
    Ticketed (Function.update conns c conn) logged acked := by
  have hold : ∀ c' r, (Function.update conns c conn c').request = some r →
      (conns c').request = some r := by
    intro c' r hr
    rcases request_update hr with ⟨rfl, hnew⟩ | ⟨-, hold⟩
    · exact hconn r hnew
    · exact hold
  exact ⟨fun c' r hr => h.busy c' r (hold c' r hr), h.answered,
    fun c' c'' r r' n hr hr' => h.apart c' c'' r r' n (hold c' r hr) (hold c'' r' hr'),
    fun c' r n hr => h.unacked c' r n (hold c' r hr), h.once⟩

/-- A request is sent, or is not to be logged. -/
theorem Ticketed.take {c : ι} {frame : Value} (h : Ticketed conns logged acked) :
    Ticketed (Function.update conns c
      (.taken frame ((logEntry frame).map fun _ => logged.length)))
      (logged ++ (logEntry frame).toList) acked := by
  have hnew : ∀ r, Conn.request (.taken frame ((logEntry frame).map fun _ => logged.length)) =
      some r → Placed (logged ++ (logEntry frame).toList) r ∧
        ∀ n, r.2 = some n → n = logged.length := by
    intro r hr
    obtain rfl := Option.some.inj hr
    cases hentry : logEntry frame with
    | none => exact ⟨hentry, fun n hn => by cases hn⟩
    | some entry =>
      obtain rfl := logEntry_eq hentry
      exact ⟨List.getElem?_concat_length, fun n hn => (Option.some.inj hn).symm⟩
  refine ⟨fun c' r hr => ?_, fun r hr => (h.answered r hr).append _,
    fun c' c'' r r' n hr hr' hn hn' => ?_, fun c' r n hr hn hacked => ?_, h.once⟩
  · rcases request_update hr with ⟨-, hr⟩ | ⟨-, hr⟩
    · exact (hnew r hr).1
    · exact (h.busy c' r hr).append _
  · rcases request_update hr with ⟨hc, htaken⟩ | ⟨-, hold⟩ <;>
      rcases request_update hr' with ⟨hc', htaken'⟩ | ⟨-, hold'⟩
    · exact hc.trans hc'.symm
    · have hlt := (h.busy c'' r' hold').lt hn'
      rw [(hnew r htaken).2 n hn] at hlt
      exact absurd hlt (lt_irrefl _)
    · have hlt := (h.busy c' r hold).lt hn
      rw [(hnew r' htaken').2 n hn'] at hlt
      exact absurd hlt (lt_irrefl _)
    · exact h.apart c' c'' r r' n hold hold' hn hn'
  · rcases request_update hr with ⟨-, hr⟩ | ⟨-, hr⟩
    · obtain ⟨r', hr', hn'⟩ := List.mem_filterMap.mp hacked
      have hlt := (h.answered r' hr').lt hn'
      rw [(hnew r hr).2 n hn] at hlt
      exact absurd hlt (lt_irrefl _)
    · exact h.unacked c' r n hr hn hacked

theorem Ticketed.reply {c : ι} {r : Value × Option ℕ} (h : Ticketed conns logged acked)
    (hr : (conns c).request = some r) :
    Ticketed (Function.update conns c .idle) logged (acked ++ [r]) := by
  have hother : ∀ c' r', (Function.update conns c .idle c').request = some r' →
      c' ≠ c ∧ (conns c').request = some r' := by
    intro c' r' hr'
    rcases request_update hr' with ⟨-, hr'⟩ | hr'
    · cases hr'
    · exact hr'
  have htickets : (acked ++ [r]).filterMap Prod.snd = acked.filterMap Prod.snd ++ r.2.toList := by
    rw [List.filterMap_append]
    cases hn : r.2 <;> simp [hn]
  refine ⟨fun c' r' hr' => h.busy c' r' (hother c' r' hr').2, fun r' hr' => ?_,
    fun c' c'' r' r'' n hr' hr'' =>
      h.apart c' c'' r' r'' n (hother c' r' hr').2 (hother c'' r'' hr'').2,
    fun c' r' n hr' hn hacked => ?_, ?_⟩
  · rcases List.mem_append.mp hr' with hr' | hr'
    · exact h.answered r' hr'
    · obtain rfl := List.mem_singleton.mp hr'
      exact h.busy c r' hr
  · obtain ⟨hne, hbusy⟩ := hother c' r' hr'
    rw [htickets] at hacked
    rcases List.mem_append.mp hacked with hacked | hacked
    · exact h.unacked c' r' n hbusy hn hacked
    · exact hne (h.apart c' c r' r n hbusy hr hn (Option.mem_toList.mp hacked))
  · rw [htickets]
    cases hn : r.2 with
    | none => simpa using h.once
    | some n =>
      rw [Option.toList_some, ← List.concat_eq_append]
      exact List.Nodup.concat (h.unacked c r n hr hn) h.once

end Tickets

/-! ### What the file and the channel hold -/

/-- The commands sent are those synced, those written, the one received and
those on the channel, in this order. -/
structure Spelled (policy : AofFsyncPolicy) (w : AofWriter) (m : Machine ι)
    (durable unsynced : List Value) : Prop where
  logged : m.logged = durable ++ unsynced ++ m.hand.unwritten ++ m.channel
  written : m.fs.contents w.file = (durable ++ unsynced).flatMap encode
  synced : m.synced = durable.flatMap encode
  always : policy = .always → unsynced = m.hand.unsynced

structure Inv (policy : AofFsyncPolicy) (w : AofWriter) (path : PathBuf) (m : Machine ι) :
    Prop where
  spelled : ∃ durable unsynced, m.Spelled policy w durable unsynced
  name : m.fs.names path = some w.file
  wire : ∀ v ∈ m.logged, v.Wire
  entries : ∀ v ∈ m.logged, logEntry v = some v
  store : m.store.Inv fun _ => True
  tickets : Ticketed m.conns m.logged m.acked

section Run

variable {F : FloatText} {policy : AofFsyncPolicy} {w : AofWriter} {path : PathBuf}
  {m m' : Machine ι}

theorem take_inv {c : ι} {src : Bytes} (hm : m.Inv policy w path)
    (h : step F policy w m (.take c src) = some m') : m'.Inv policy w path := by
  obtain ⟨frame, rest, hidle, hdecode, rfl⟩ := step_take h
  obtain ⟨durable, unsynced, hlogged, hwritten, hsynced, halways⟩ := hm.spelled
  have hmem : ∀ v ∈ m.logged ++ (logEntry frame).toList,
      v ∈ m.logged ∨ logEntry frame = some v := by
    intro v hv
    rcases List.mem_append.mp hv with hv | hv
    · exact Or.inl hv
    · exact Or.inr (Option.mem_toList.mp hv)
  refine ⟨⟨durable, unsynced, ?_, hwritten, hsynced, halways⟩, hm.name, fun v hv => ?_,
    fun v hv => ?_, hm.store, hm.tickets.take⟩
  · show m.logged ++ (logEntry frame).toList = _ ++ (m.channel ++ (logEntry frame).toList)
    rw [hlogged]
    simp only [List.append_assoc]
    rfl
  · rcases hmem v hv with hv | hv
    · exact hm.wire v hv
    · rw [logEntry_eq hv]
      exact wire_of_decode hdecode
  · rcases hmem v hv with hv | hv
    · exact hm.entries v hv
    · obtain rfl := logEntry_eq hv
      exact hv

theorem execute_inv {c : ι} {ord : IterOrder} {info : Bytes} {now : Reading}
    (hm : m.Inv policy w path) (h : step F policy w m (.execute c ord info now) = some m') :
    m'.Inv policy w path := by
  obtain ⟨frame, ticket, hconn, rfl⟩ := step_execute h
  obtain ⟨durable, unsynced, hlogged, hwritten, hsynced, halways⟩ := hm.spelled
  refine ⟨⟨durable, unsynced, hlogged, hwritten, hsynced, halways⟩, hm.name, hm.wire, hm.entries,
    inv_respond F ord info now frame hm.store, hm.tickets.goOn fun r hr => ?_⟩
  rw [hconn, after_request hr]
  rfl

theorem reply_inv {c : ι} (hm : m.Inv policy w path)
    (h : step F policy w m (.reply c) = some m') : m'.Inv policy w path := by
  obtain ⟨frame, reply, ticket, hconn, rfl⟩ := step_reply h
  obtain ⟨durable, unsynced, hlogged, hwritten, hsynced, halways⟩ := hm.spelled
  exact ⟨⟨durable, unsynced, hlogged, hwritten, hsynced, halways⟩, hm.name, hm.wire, hm.entries,
    hm.store, hm.tickets.reply (by rw [hconn]; rfl)⟩

theorem processor_inv {a : Action ι} (ha : a = .receive ∨ a = .write ∨ a = .sync ∨ a = .fsync)
    (hm : m.Inv policy w path) (h : step F policy w m a = some m') : m'.Inv policy w path := by
  obtain ⟨durable, unsynced, hlogged, hwritten, hsynced, halways⟩ := hm.spelled
  rcases ha with rfl | rfl | rfl | rfl
  · obtain ⟨command, channel, hhand, hchannel, rfl⟩ := step_receive h
    refine ⟨⟨durable, unsynced, ?_, hwritten, hsynced, ?_⟩, hm.name, hm.wire, hm.entries, hm.store,
      hm.tickets⟩
    · rw [hlogged, hhand, hchannel]
      simp [Hand.unwritten]
    · rw [hhand] at halways
      exact halways
  · obtain ⟨command, hhand, rfl⟩ := step_write h
    refine ⟨⟨durable, unsynced ++ [command], ?_, ?_, hsynced, ?_⟩, hm.name, hm.wire, hm.entries,
      hm.store, hm.tickets⟩
    · have hempty : (Hand.afterWrite policy command).unwritten = [] := by
        cases policy <;> rfl
      rw [hlogged, hhand, hempty]
      simp [Hand.unwritten]
    · simp [AofWriter.append, hwritten]
    · intro hp
      rw [halways hp, hp, hhand]
      rfl
  · obtain ⟨command, hhand, rfl⟩ := step_sync h
    refine ⟨⟨durable ++ unsynced, [], ?_, ?_, hwritten, fun _ => rfl⟩, hm.name, hm.wire, hm.entries,
      hm.store, hm.tickets⟩
    · rw [hlogged, hhand]
      simp [Hand.unwritten]
    · rw [List.append_nil]
      exact hwritten
  · obtain ⟨hp, rfl⟩ := step_fsync h
    refine ⟨⟨durable ++ unsynced, [], ?_, ?_, hwritten, ?_⟩, hm.name, hm.wire, hm.entries, hm.store,
      hm.tickets⟩
    · rw [List.append_nil]
      exact hlogged
    · rw [List.append_nil]
      exact hwritten
    · rw [hp]
      intro hpolicy
      cases hpolicy

theorem step_inv {a : Action ι} (hm : m.Inv policy w path)
    (h : step F policy w m a = some m') : m'.Inv policy w path := by
  cases a with
  | take c src => exact take_inv hm h
  | execute c ord info now => exact execute_inv hm h
  | reply c => exact reply_inv hm h
  | receive => exact processor_inv (Or.inl rfl) hm h
  | write => exact processor_inv (Or.inr (Or.inl rfl)) hm h
  | sync => exact processor_inv (Or.inr (Or.inr (Or.inl rfl))) hm h
  | fsync => exact processor_inv (Or.inr (Or.inr (Or.inr rfl))) hm h

omit [DecidableEq ι] in
theorem start_inv (path : PathBuf) (fs : FileSystem)
    (hempty : ∀ bytes, fs.read path = some bytes → bytes = []) :
    (start path fs : Machine ι).Inv policy (AofWriter.new path fs).1 path := by
  obtain ⟨hname, hfile⟩ := AofWriter.new_names path fs
  have hnew : (AofWriter.new path fs).2.contents (AofWriter.new path fs).1.file = [] := by
    rw [hfile]
    cases hread : fs.read path with
    | none => rfl
    | some bytes => exact hempty bytes hread
  refine ⟨⟨[], [], rfl, hnew, hnew, fun _ => rfl⟩, hname, ?_, ?_, Store.inv_empty _, ?_⟩
  · exact fun v hv => absurd hv List.not_mem_nil
  · exact fun v hv => absurd hv List.not_mem_nil
  · refine ⟨fun c r hr => ?_, fun r hr => absurd hr List.not_mem_nil, fun c c' r r' n hr => ?_,
      fun c r n hr => ?_, List.nodup_nil⟩ <;> cases hr

end Run

end Machine

end FireRedis
