import FireRedis.Base.Runs
import FireRedis.Base.Tally
import FireRedis.Metrics.Totals

/-!
# What the counters say about a running server

Connections are accepted and closed (server.rs, `run`); each counts a request,
executes it, records the latency and then the reply (`handle_connection`). The
tasks take turns between these calls, the evictor, the saves and the updater of
the key count among them. A panic ends a task for good, with its connection still
counted as open.
-/

namespace FireRedis
open System Tally Function Http Exposition

/-- A task between two calls of the recorders. -/
inductive Task where
  | closed
  | waiting
  | counted (frame : Value)
  | executed (frame reply : Value)
  | timed (frame reply : Value)
  | panicked

namespace Task

def isOpen : Task → Bool
  | .closed => false
  | _ => true

/-- The request is counted and its reply is not. -/
def inFlight : Task → Bool
  | .counted _ | .executed _ _ | .timed _ _ | .panicked => true
  | _ => false

def isTimed : Task → Bool
  | .timed _ _ => true
  | _ => false

end Task

/-- Only an array that is not empty is counted, timed and executed. -/
def isCounted : Value → Bool
  | .array (some (_ :: _)) => true
  | _ => false

/-- `answers` has every request that was answered, with its reply. The counters
are those of the recordings. -/
structure Monitor (ι : Type) where
  store : Store
  recordings : List Recording
  tasks : ι → Task
  answers : List (Value × Value)

namespace Monitor

inductive Action (ι : Type) where
  | accept (c : ι)
  | receive (c : ι) (frame : Value)
  | execute (c : ι) (ord : IterOrder) (info : Bytes) (now : Reading)
  | time (c : ι) (elapsedUs : UInt64)
  | answer (c : ι)
  | close (c : ι)
  | evict (now : Reading)
  | saved
  | updateKeys

variable {ι : Type} [DecidableEq ι]

/-- What `evict_expired` records. -/
def evictions (now : Reading) (s : Store) : List Recording :=
  (Store.evictExpired.runAt now s).1.toOption.toList.map fun n => .evicted (UInt64.ofNat n)

/-- Of the commands only KEYS evicts, when it accepts its pattern. -/
def requestEvictions (F : FloatText) (frame : Value) (now : Reading) (s : Store) :
    List Recording :=
  match frame with
  | .array (some args) =>
    match tryFrom F args with
    | .ok (.keys pattern) => if pattern = Str.lit "*" then evictions now s else []
    | _ => []
  | _ => []

section Step

variable (F : FloatText) (m : Monitor ι)

def note (rs : List Recording) : Monitor ι := { m with recordings := m.recordings ++ rs }

def setTask (c : ι) (task : Task) : Monitor ι := { m with tasks := update m.tasks c task }

/-- The reply to a request that is not counted. -/
def rejection : Value → Value
  | .array (some []) => .error (Str.lit "ERR empty command")
  | _ => .error (Str.lit "ERR invalid request format")

def step : Action ι → Option (Monitor ι)
  | .accept c =>
    match m.tasks c with
    | .closed => some ((m.note [.connectionOpened]).setTask c .waiting)
    | _ => none
  | .receive c frame =>
    match m.tasks c with
    | .waiting =>
      if isCounted frame then some ((m.note [.received frame]).setTask c (.counted frame))
      else some { m with answers := m.answers ++ [(frame, rejection frame)] }
    | _ => none
  | .execute c ord info now =>
    match m.tasks c with
    | .counted frame =>
      let r := (respond F ord info frame).runAt now m.store
      let m := { m with store := r.2 }.note (requestEvictions F frame now m.store)
      some (m.setTask c (match r.1 with
        | .ok reply => .executed frame reply
        | .error _ => .panicked))
    | _ => none
  | .time c elapsedUs =>
    match m.tasks c with
    | .executed frame reply => some ((m.note [.latency elapsedUs]).setTask c (.timed frame reply))
    | _ => none
  | .answer c =>
    match m.tasks c with
    | .timed frame reply =>
      some ({ m with answers := m.answers ++ [(frame, reply)] }.note [.answered reply]
        |>.setTask c .waiting)
    | _ => none
  | .close c =>
    match m.tasks c with
    | .waiting => some ((m.note [.connectionClosed]).setTask c .closed)
    | _ => none
  | .evict now =>
    some ({ m with store := (Store.evictExpired.runAt now m.store).2 }.note
      (evictions now m.store))
  -- The eviction that the snapshot starts with is a step of its own.
  | .saved => some (m.note [.rdbSave])
  | .updateKeys => some (m.note [.totalKeys (Int64.ofNat m.store.data.size)])

end Step

def start (s : Store) : Monitor ι := ⟨s, [], fun _ => .closed, []⟩

/-! ### One step -/

/-- The replies to the counted requests. -/
def countedReplies (answers : List (Value × Value)) : List Value :=
  (answers.filter fun a => isCounted a.1).map Prod.snd

/-- Every counted request is answered or in flight, every latency is that of a
request that is answered or about to be, and every open connection has a task. -/
structure Balanced (m : Monitor ι) : Prop where
  finite : ∀ p : Task → Bool, p .closed = false → (within p m.tasks).Finite
  commands : (receivedNames m.recordings).length =
    (countedReplies m.answers).length + tally Task.inFlight m.tasks
  latencies : (latencies m.recordings).length =
    (countedReplies m.answers).length + tally Task.isTimed m.tasks
  replies : recordedReplies m.recordings = countedReplies m.answers
  connections : m.recordings.countP Recording.isOpened =
    m.recordings.countP Recording.isClosed + tally Task.isOpen m.tasks

section Balance

variable {m : Monitor ι} {rs : List Recording}

/-- What a task records and answers fits its own change. -/
theorem Balanced.move (h : m.Balanced) (s : Store) (c : ι) (task : Task) (rs : List Recording)
    (as : List (Value × Value))
    (hcommands : (receivedNames rs).length + (m.tasks c).inFlight.toNat =
      (countedReplies as).length + task.inFlight.toNat)
    (hlatencies : (FireRedis.latencies rs).length + (m.tasks c).isTimed.toNat =
      (countedReplies as).length + task.isTimed.toNat)
    (hreplies : recordedReplies rs = countedReplies as)
    (hconnections : rs.countP Recording.isOpened + (m.tasks c).isOpen.toNat =
      rs.countP Recording.isClosed + task.isOpen.toNat) :
    Balanced ⟨s, m.recordings ++ rs, update m.tasks c task, m.answers ++ as⟩ where
  finite p hp := finite_update (h.finite p hp) c task
  commands := by
    have htally := tally_update (h.finite Task.inFlight rfl) c task
    have hbefore := h.commands
    simp only [receivedNames, countedReplies, List.filterMap_append, List.filter_append,
      List.map_append, List.length_append] at hcommands hbefore ⊢
    omega
  latencies := by
    have htally := tally_update (h.finite Task.isTimed rfl) c task
    have hbefore := h.latencies
    simp only [FireRedis.latencies, countedReplies, List.filterMap_append, List.filter_append,
      List.map_append, List.length_append] at hlatencies hbefore ⊢
    omega
  replies := by
    have hbefore := h.replies
    simp only [recordedReplies, countedReplies, List.filterMap_append, List.filter_append,
      List.map_append] at hreplies hbefore ⊢
    rw [hreplies, hbefore]
  connections := by
    have htally := tally_update (h.finite Task.isOpen rfl) c task
    have hbefore := h.connections
    simp only [List.countP_append] at hconnections ⊢
    omega

omit [DecidableEq ι] in
/-- A recording that is about no request and no connection. -/
theorem Balanced.quiet (h : m.Balanced) (s : Store) (hnames : receivedNames rs = [])
    (hlatencies : FireRedis.latencies rs = []) (hreplies : recordedReplies rs = [])
    (hopened : rs.countP Recording.isOpened = 0) (hclosed : rs.countP Recording.isClosed = 0) :
    Balanced ⟨s, m.recordings ++ rs, m.tasks, m.answers⟩ where
  finite := h.finite
  commands := by
    rw [receivedNames, List.filterMap_append, ← receivedNames, ← receivedNames, hnames,
      List.append_nil]
    exact h.commands
  latencies := by
    rw [FireRedis.latencies, List.filterMap_append, ← FireRedis.latencies,
      ← FireRedis.latencies, hlatencies, List.append_nil]
    exact h.latencies
  replies := by
    rw [recordedReplies, List.filterMap_append, ← recordedReplies, ← recordedReplies, hreplies,
      List.append_nil]
    exact h.replies
  connections := by
    rw [List.countP_append, List.countP_append, hopened, hclosed]
    exact h.connections

theorem evictions_run (now : Reading) (s : Store) : ∃ n, evictions now s = [.evicted n] := by
  obtain ⟨n, hn⟩ := Store.evictExpired_run now s
  exact ⟨UInt64.ofNat n, by rw [evictions, hn]; rfl⟩

theorem requestEvictions_run (F : FloatText) (frame : Value) (now : Reading) (s : Store) :
    requestEvictions F frame now s = [] ∨
      ∃ n, requestEvictions F frame now s = [.evicted n] := by
  unfold requestEvictions
  split
  · split
    · split
      · exact .inr (evictions_run now s)
      · exact .inl rfl
    · exact .inl rfl
  · exact .inl rfl

theorem names_counted {frame : Value} (h : isCounted frame = true) :
    (receivedNames [.received frame]).length = 1 := by
  rcases frame with _ | _ | _ | _ | (_ | (_ | ⟨arg, args⟩)) | _ <;> first | rfl | cases h

theorem countedReplies_one {frame : Value} (reply : Value) (h : isCounted frame = true) :
    countedReplies [(frame, reply)] = [reply] := by
  simp [countedReplies, h]

theorem countedReplies_rejected {frame : Value} (reply : Value) (h : ¬ isCounted frame = true) :
    countedReplies [(frame, reply)] = [] := by
  simp [countedReplies, h]

end Balance

section Runs

variable {F : FloatText} {m m' : Monitor ι}

/-- A task holds only a request that was counted. -/
def Holds : Task → Prop
  | .counted frame | .executed frame _ | .timed frame _ => isCounted frame = true
  | _ => True

/-- What is true of the running server. -/
structure Inv (m : Monitor ι) : Prop where
  balanced : m.Balanced
  holds : ∀ c, Holds (m.tasks c)

theorem Inv.set (h : m.Inv) {c : ι} {task : Task} {s : Store} {rs : List Recording}
    {as : List (Value × Value)} (htask : Holds task)
    (hbalanced : Balanced ⟨s, rs, update m.tasks c task, as⟩) :
    Inv ⟨s, rs, update m.tasks c task, as⟩ :=
  ⟨hbalanced, (forall_update_iff m.tasks fun _ => Holds).mpr ⟨htask, fun c' _ => h.holds c'⟩⟩

theorem receive_inv {c : ι} {frame : Value} (hm : m.Inv)
    (h : step F m (.receive c frame) = some m') : m'.Inv := by
  simp only [step] at h
  split at h
  · rename_i hwaiting
    split at h
    · rename_i hcounted
      obtain rfl := Option.some.inj h
      have hmove := hm.balanced.move m.store c (.counted frame) [.received frame] []
        (by rw [names_counted hcounted, hwaiting]; rfl)
        (by rw [hwaiting]; rfl) rfl (by rw [hwaiting]; rfl)
      rw [List.append_nil] at hmove
      exact hm.set hcounted hmove
    · rename_i hcounted
      obtain rfl := Option.some.inj h
      have hmove := hm.balanced.move m.store c .waiting [] [(frame, rejection frame)]
        (by rw [countedReplies_rejected _ hcounted, hwaiting]; rfl)
        (by rw [countedReplies_rejected _ hcounted, hwaiting]; rfl)
        (countedReplies_rejected _ hcounted).symm (by rw [hwaiting]; rfl)
      have hsame : update m.tasks c .waiting = m.tasks := by
        rw [← hwaiting, update_eq_self]
      rw [List.append_nil, hsame] at hmove
      exact ⟨hmove, hm.holds⟩
  · cases h

theorem execute_inv {c : ι} {ord : IterOrder} {info : Bytes} {now : Reading} (hm : m.Inv)
    (h : step F m (.execute c ord info now) = some m') : m'.Inv := by
  simp only [step] at h
  split at h
  · rename_i frame hcounted
    obtain rfl := Option.some.inj h
    have hframe : isCounted frame = true := by
      have hholds := hm.holds c
      rwa [hcounted] at hholds
    have hmoves : ∀ task : Task, task.inFlight = true → task.isTimed = false →
        task.isOpen = true → Holds task →
        Inv ⟨((respond F ord info frame).runAt now m.store).2,
          m.recordings ++ requestEvictions F frame now m.store, update m.tasks c task,
          m.answers⟩ := by
      intro task hflight htimed hopen hholds
      have hmove := hm.balanced.move ((respond F ord info frame).runAt now m.store).2 c task
        (requestEvictions F frame now m.store) []
      rw [List.append_nil] at hmove
      refine hm.set hholds ?_
      rcases requestEvictions_run F frame now m.store with hrs | ⟨n, hrs⟩
      all_goals
        rw [hrs] at hmove ⊢
        refine hmove ?_ ?_ rfl ?_
        · rw [hcounted, hflight]
          rfl
        · rw [hcounted, htimed]
          rfl
        · rw [hcounted, hopen]
          rfl
    cases hr : ((respond F ord info frame).runAt now m.store).1 with
    | ok reply => exact hmoves (.executed frame reply) rfl rfl rfl hframe
    | error p => exact hmoves .panicked rfl rfl rfl trivial
  · cases h

theorem answer_inv {c : ι} (hm : m.Inv) (h : step F m (.answer c) = some m') : m'.Inv := by
  simp only [step] at h
  split at h
  · rename_i frame reply htimed
    obtain rfl := Option.some.inj h
    have hframe : isCounted frame = true := by
      have hholds := hm.holds c
      rwa [htimed] at hholds
    have hone := countedReplies_one reply hframe
    have htask : Holds .waiting := trivial
    refine hm.set htask (hm.balanced.move m.store c .waiting [.answered reply] [(frame, reply)]
      ?_ ?_ hone.symm ?_)
    · rw [htimed, hone]
      rfl
    · rw [htimed, hone]
      rfl
    · rw [htimed]
      rfl
  · cases h

/-- A step that moves one task and answers nothing. -/
theorem Inv.move (hm : m.Inv) (c : ι) (task : Task) (r : Recording) (htask : Holds task)
    (hcommands : (receivedNames [r]).length + (m.tasks c).inFlight.toNat = task.inFlight.toNat)
    (hlatencies : (FireRedis.latencies [r]).length + (m.tasks c).isTimed.toNat =
      task.isTimed.toNat)
    (hreplies : recordedReplies [r] = [])
    (hconnections : [r].countP Recording.isOpened + (m.tasks c).isOpen.toNat =
      [r].countP Recording.isClosed + task.isOpen.toNat) :
    ((m.note [r]).setTask c task).Inv := by
  have hmove := hm.balanced.move m.store c task [r] []
    (hcommands.trans (Nat.zero_add _).symm) (hlatencies.trans (Nat.zero_add _).symm) hreplies
    hconnections
  rw [List.append_nil] at hmove
  exact hm.set htask hmove

theorem step_inv (a : Action ι) (hm : m.Inv) (h : step F m a = some m') : m'.Inv := by
  cases a with
  | accept c =>
    simp only [step] at h
    split at h
    · rename_i hclosed
      obtain rfl := Option.some.inj h
      exact hm.move c .waiting .connectionOpened trivial (by rw [hclosed]; rfl)
        (by rw [hclosed]; rfl) rfl (by rw [hclosed]; rfl)
    · cases h
  | receive c frame => exact receive_inv hm h
  | execute c ord info now => exact execute_inv hm h
  | time c elapsedUs =>
    simp only [step] at h
    split at h
    · rename_i frame reply hexecuted
      obtain rfl := Option.some.inj h
      have hholds := hm.holds c
      rw [hexecuted] at hholds
      exact hm.move c (.timed frame reply) (.latency elapsedUs) hholds (by rw [hexecuted]; rfl)
        (by rw [hexecuted]; rfl) rfl (by rw [hexecuted]; rfl)
    · cases h
  | answer c => exact answer_inv hm h
  | close c =>
    simp only [step] at h
    split at h
    · rename_i hwaiting
      obtain rfl := Option.some.inj h
      exact hm.move c .closed .connectionClosed trivial (by rw [hwaiting]; rfl)
        (by rw [hwaiting]; rfl) rfl (by rw [hwaiting]; rfl)
    · cases h
  | evict now =>
    obtain rfl := Option.some.inj h
    obtain ⟨n, hn⟩ := evictions_run now m.store
    rw [note, hn]
    exact ⟨hm.balanced.quiet _ rfl rfl rfl rfl rfl, hm.holds⟩
  | saved =>
    obtain rfl := Option.some.inj h
    exact ⟨hm.balanced.quiet _ rfl rfl rfl rfl rfl, hm.holds⟩
  | updateKeys =>
    obtain rfl := Option.some.inj h
    exact ⟨hm.balanced.quiet _ rfl rfl rfl rfl rfl, hm.holds⟩

omit [DecidableEq ι] in
theorem start_inv (s : Store) : (start s : Monitor ι).Inv := by
  have hnone : ∀ p : Task → Bool, p .closed = false → 0 = 0 + tally p fun _ : ι => Task.closed :=
    fun p hp => by rw [tally_const hp]
  exact ⟨⟨fun p hp => finite_const hp, hnone Task.inFlight rfl, hnone Task.isTimed rfl, rfl,
    hnone Task.isOpen rfl⟩, fun _ => trivial⟩

end Runs

/-! ### The counters -/

end Monitor

open Monitor

namespace Monitor

/-- One client pushes a value; the range that the other asks for makes its task
panic before the first is answered. -/
def ranged : List (Action Bool) :=
  [.accept false, .accept true,
    .receive false (commandValue "RPUSH" [Str.utf8 "k", Str.utf8 "a"]),
    .execute false .sorted [] ⟨0, 0⟩, .time false 7,
    .receive true (commandValue "LRANGE" [Str.utf8 "k", Str.utf8 "0", Str.utf8 "-2"]),
    .execute true .sorted [] ⟨0, 0⟩, .answer false]

end Monitor

end FireRedis
