import FireRedis.Concurrency.Durability
import FireRedis.Server.Apart

/-!
# The order of the log and the order of execution

Connections send their commands in one order and may execute them in another.
Where a request is executed only when every request sent before it on a common
key has been, the requests still to be executed, in the order in which they were
sent, would bring the store to the dataset that the log gives.
-/

namespace FireRedis
open System

namespace Machine

variable {ι : Type}

/-- Every execution reads the same clocks. -/
def Still (now : Reading) : Action ι → Prop
  | .execute _ _ _ now' => now' = now
  | _ => True

def NoSPop : Action ι → Prop
  | .take _ src => ∀ frame rest, decode src = (.ok (some frame), rest) → ¬ IsSPop frame
  | _ => True

/-- A request is executed when no request that was sent before it and touches one
of its keys is still to be executed. -/
def InOrder (F : FloatText) (m : Machine ι) : Action ι → Prop
  | .execute c _ _ _ => ∀ frame n, m.conns c = .taken frame (some n) →
    ∀ c' frame' n', m.conns c' = .taken frame' (some n') → n' < n → Apart F frame' frame
  | _ => True

/-- Every connection has its reply. -/
def Settled (m : Machine ι) : Prop := ∀ c, m.conns c = .idle ∨ m.conns c = .closed

/-- The requests sent and not executed yet, in the order of their tickets. -/
structure Pending (m : Machine ι) (pending : List (ℕ × Value)) : Prop where
  waiting : ∀ n frame, (n, frame) ∈ pending ↔ ∃ c, m.conns c = .taken frame (some n)
  sorted : pending.Pairwise fun a b => a.1 < b.1
  unique : ∀ c c' frame frame' n, m.conns c = .taken frame (some n) →
    m.conns c' = .taken frame' (some n) → c = c'
  reads : ∀ c frame, m.conns c = .taken frame none → logEntry frame = none
  entries : ∀ e ∈ pending, logEntry e.2 = some e.2 ∧ ¬ IsSPop e.2

variable (F : FloatText) (ord : IterOrder) (info : Bytes) (now : Reading)

/-- Executing what is pending gives the dataset that the log gives. -/
def CatchesUp (m : Machine ι) (pending : List (ℕ × Value)) : Prop :=
  (runTurns F (replayTurns ord info now (pending.map Prod.snd)) m.store).live now.instant =
    (runTurns F (replayTurns ord info now m.logged) Store.empty).live now.instant

section Live

theorem replayTurns_now (log : List Value) : ∀ t ∈ replayTurns ord info now log, t.now = now := by
  intro t ht
  obtain ⟨v, -, rfl⟩ := List.mem_map.mp ht
  rfl

theorem replayTurns_append (log log' : List Value) : replayTurns ord info now (log ++ log') =
    replayTurns ord info now log ++ replayTurns ord info now log' := List.map_append

/-- The process that executes a logged request makes no difference to the dataset. -/
theorem run_process (ord' : IterOrder) (info' : Bytes) {frame : Value}
    (hlog : logEntry frame = some frame) (hpop : ¬ IsSPop frame) {s : Store}
    (hs : s.Inv fun _ => True) : ((respond F ord' info' frame).runAt now s).2.live now.instant =
      (Turn.run F ⟨frame, ord, info, now⟩ s).2.live now.instant := by
  obtain ⟨-, s₁, hexec, -, hlive⟩ :=
    respond_logged F ord' ord info' info now frame frame hlog hpop hs hs rfl
  obtain ⟨reply, hreply⟩ := respond_of_logged F ord info now hlog hs
  have hrun : (respond F ord info frame).runAt now s =
      (.ok reply, ((respond F ord info frame).runAt now s).2) := Prod.ext hreply rfl
  have hsame := (Prod.mk.inj (hexec.symm.trans (executeCommand_run F ord info now hrun))).2
  rw [hlive, hsame]
  rfl

end Live

section Step

variable [DecidableEq ι] {F ord info now} {policy : AofFsyncPolicy} {w : AofWriter} {path : PathBuf}
  {m m' : Machine ι} {pending : List (ℕ × Value)}

omit [DecidableEq ι] in
theorem Pending.quiet (hp : m.Pending pending)
    (hsame : ∀ c frame n, m'.conns c = .taken frame (some n) ↔ m.conns c = .taken frame (some n))
    (hreads : ∀ c frame, m'.conns c = .taken frame none → logEntry frame = none) :
    m'.Pending pending where
  waiting n frame := (hp.waiting n frame).trans (exists_congr fun c => (hsame c frame n).symm)
  sorted := hp.sorted
  unique c c' frame frame' n h h' :=
    hp.unique c c' frame frame' n ((hsame c frame n).mp h) ((hsame c' frame' n).mp h')
  reads := hreads
  entries := hp.entries

theorem taken_update {c : ι} {conn : Conn} (hconns : m'.conns = Function.update m.conns c conn)
    (c' : ι) (frame : Value) (ticket : Option ℕ) : m'.conns c' = .taken frame ticket ↔
      if c' = c then conn = .taken frame ticket else m.conns c' = .taken frame ticket := by
  rw [hconns, Function.update_apply]
  split <;> rfl

theorem Pending.reads_update (hp : m.Pending pending) {c : ι} {conn : Conn}
    (hconns : m'.conns = Function.update m.conns c conn)
    (hread : ∀ frame, conn = .taken frame none → logEntry frame = none) (c' : ι) (frame : Value)
    (htaken : m'.conns c' = .taken frame none) : logEntry frame = none := by
  rw [taken_update hconns] at htaken
  split at htaken
  · exact hread frame htaken
  · exact hp.reads c' frame htaken

theorem Pending.setConn (hp : m.Pending pending) {c : ι} {conn : Conn}
    (hbefore : ∀ frame n, m.conns c ≠ .taken frame (some n))
    (hafter : ∀ frame n, conn ≠ .taken frame (some n))
    (hread : ∀ frame, conn = .taken frame none → logEntry frame = none) :
    (m.setConn c conn).Pending pending := by
  refine hp.quiet (fun c' frame n => ?_) (hp.reads_update rfl hread)
  rw [taken_update rfl]
  split
  · rename_i hc
    rw [hc]
    exact iff_of_false (hafter frame n) (hbefore frame n)
  · rfl

omit [DecidableEq ι] in
theorem Pending.ticket_lt (hp : m.Pending pending) (hm : m.Inv policy w path) {e : ℕ × Value}
    (he : e ∈ pending) : e.1 < m.logged.length := by
  obtain ⟨c, hc⟩ := (hp.waiting e.1 e.2).mp he
  exact (hm.tickets.busy c (e.2, some e.1) (by rw [hc]; rfl)).lt rfl

theorem Pending.sent (hp : m.Pending pending) {c : ι} {n : ℕ} {frame : Value}
    (hidle : m.conns c = .idle) (hnew : ∀ e ∈ pending, e.1 < n)
    (hentry : logEntry frame = some frame ∧ ¬ IsSPop frame)
    (hconns : m'.conns = Function.update m.conns c (.taken frame (some n))) :
    m'.Pending (pending ++ [(n, frame)]) := by
  have htaken : ∀ c' frame' n', m'.conns c' = .taken frame' (some n') ↔
      (c' = c ∧ frame' = frame ∧ n' = n) ∨ m.conns c' = .taken frame' (some n') := by
    intro c' frame' n'
    rw [taken_update hconns]
    split
    · rename_i hc
      rw [hc, hidle]
      simp [eq_comm]
    · rename_i hne
      simp [hne]
  have hlt : ∀ c' frame', m.conns c' ≠ .taken frame' (some n) := fun c' frame' hc' =>
    lt_irrefl n (hnew (n, frame') ((hp.waiting n frame').mpr ⟨c', hc'⟩))
  refine ⟨fun n' frame' => ?_, ?_, ?_, ?_, ?_⟩
  · simp only [List.mem_append, List.mem_singleton, Prod.mk.injEq, hp.waiting, htaken]
    constructor
    · rintro (⟨c', hc'⟩ | ⟨hn, hframe⟩)
      · exact ⟨c', Or.inr hc'⟩
      · exact ⟨c, Or.inl ⟨rfl, hframe, hn⟩⟩
    · rintro ⟨c', ⟨-, hframe, hn⟩ | hc'⟩
      · exact Or.inr ⟨hn, hframe⟩
      · exact Or.inl ⟨c', hc'⟩
  · refine List.pairwise_append.mpr ⟨hp.sorted, List.pairwise_singleton .., fun e he e' he' => ?_⟩
    rw [List.mem_singleton.mp he']
    exact hnew e he
  · intro c₁ c₂ frame₁ frame₂ n' h₁ h₂
    rcases (htaken c₁ frame₁ n').mp h₁ with ⟨hc₁, -, rfl⟩ | h₁
    · rcases (htaken c₂ frame₂ n').mp h₂ with ⟨hc₂, -, -⟩ | h₂
      · rw [hc₁, hc₂]
      · exact absurd h₂ (hlt c₂ frame₂)
    · rcases (htaken c₂ frame₂ n').mp h₂ with ⟨-, -, rfl⟩ | h₂
      · exact absurd h₁ (hlt c₁ frame₁)
      · exact hp.unique c₁ c₂ frame₁ frame₂ n' h₁ h₂
  · exact hp.reads_update hconns nofun
  · intro e he
    rcases List.mem_append.mp he with he | he
    · exact hp.entries e he
    · rw [List.mem_singleton.mp he]
      exact hentry

omit [DecidableEq ι] in
theorem CatchesUp.sent (hm : m.Inv policy w path) (hlive : m.CatchesUp F ord info now pending)
    {n : ℕ} {entry : Value} (hstore : m'.store = m.store)
    (hlogged : m'.logged = m.logged ++ [entry]) :
    m'.CatchesUp F ord info now (pending ++ [(n, entry)]) := by
  rw [CatchesUp, hstore, hlogged, List.map_append, replayTurns_append, runTurns_append,
    replayTurns_append, runTurns_append]
  exact runTurns_live F (replayTurns_now ord info now [entry]) (inv_runTurns F _ hm.store)
    (inv_runTurns F _ (Store.inv_empty _)) hlive

theorem take_pending {c : ι} {src : Bytes} (hm : m.Inv policy w path) (hp : m.Pending pending)
    (hlive : m.CatchesUp F ord info now pending) (hpop : NoSPop (.take c src : Action ι))
    (h : step F policy w m (.take c src) = some m') :
    ∃ pending', m'.Pending pending' ∧ m'.CatchesUp F ord info now pending' := by
  obtain ⟨frame, rest, hidle, hdecode, rfl⟩ := step_take h
  cases hlog : logEntry frame with
  | none =>
    have hsent : (m.send frame).Pending pending := hp.quiet (fun _ _ _ => Iff.rfl) hp.reads
    have hsame : (m.send frame).logged = m.logged := by
      show m.logged ++ (logEntry frame).toList = m.logged
      rw [hlog, Option.toList_none, List.append_nil]
    refine ⟨pending, hsent.setConn (fun frame' n => ?_) (fun _ _ => nofun) fun frame' heq => ?_, ?_⟩
    · show m.conns c ≠ _
      rw [hidle]
      exact nofun
    · cases heq
      exact hlog
    · show _ = (runTurns F (replayTurns ord info now (m.send frame).logged)
        Store.empty).live now.instant
      rw [hsame]
      exact hlive
  | some entry =>
    obtain rfl := logEntry_eq hlog
    have hlogged : (m.send entry).logged = m.logged ++ [entry] := by
      show m.logged ++ (logEntry entry).toList = _
      rw [hlog, Option.toList_some]
    refine ⟨pending ++ [(m.logged.length, entry)], ?_, ?_⟩
    · exact hp.sent hidle (fun e he => hp.ticket_lt hm he) ⟨hlog, hpop entry rest hdecode⟩ rfl
    · exact CatchesUp.sent hm hlive rfl hlogged

section Served

variable {before after : List (ℕ × Value)} {n : ℕ} {frame : Value} {c : ι}

theorem Pending.served (hp : m.Pending (before ++ (n, frame) :: after))
    (hconn : m.conns c = .taken frame (some n)) {conn : Conn}
    (hdone : ∀ frame ticket, conn ≠ .taken frame ticket)
    (hconns : m'.conns = Function.update m.conns c conn) : m'.Pending (before ++ after) := by
  have hsub : (before ++ after).Sublist (before ++ (n, frame) :: after) :=
    (List.sublist_cons_self (n, frame) after).append_left before
  obtain ⟨-, hafter, hcross⟩ := List.pairwise_append.mp hp.sorted
  have hlt := (List.pairwise_cons.mp hafter).1
  have htaken : ∀ c' frame' n', m'.conns c' = .taken frame' (some n') ↔
      c' ≠ c ∧ m.conns c' = .taken frame' (some n') := by
    intro c' frame' n'
    rw [taken_update hconns]
    split
    · rename_i hc
      exact iff_of_false (hdone frame' (some n')) fun h => h.1 hc
    · rename_i hne
      exact (and_iff_right hne).symm
  refine ⟨fun n' frame' => ?_, hp.sorted.sublist hsub, ?_, ?_,
    fun e he => hp.entries e (hsub.subset he)⟩
  · simp only [htaken]
    constructor
    · intro hmem
      obtain ⟨c', hc'⟩ := (hp.waiting n' frame').mp (hsub.subset hmem)
      refine ⟨c', ?_, hc'⟩
      rintro rfl
      rw [hconn] at hc'
      cases hc'
      rcases List.mem_append.mp hmem with hmem | hmem
      · exact absurd (hcross _ hmem _ (List.mem_cons_self ..)) (lt_irrefl n)
      · exact absurd (hlt _ hmem) (lt_irrefl n)
    · rintro ⟨c', hne, hc'⟩
      have hmem := (hp.waiting n' frame').mpr ⟨c', hc'⟩
      simp only [List.mem_append, List.mem_cons] at hmem ⊢
      rcases hmem with hmem | heq | hmem
      · exact Or.inl hmem
      · cases heq
        exact absurd (hp.unique c' c _ _ _ hc' hconn) hne
      · exact Or.inr hmem
  · intro c₁ c₂ frame₁ frame₂ n' h₁ h₂
    exact hp.unique c₁ c₂ frame₁ frame₂ n' ((htaken _ _ _).mp h₁).2 ((htaken _ _ _).mp h₂).2
  · exact hp.reads_update hconns fun frame' heq => absurd heq (hdone frame' none)

omit [DecidableEq ι] in
/-- A request that nothing in front of it is waiting for is executed where it
stands in what is pending. -/
theorem CatchesUp.served {ord' : IterOrder} {info' : Bytes} (hm : m.Inv policy w path)
    (hp : m.Pending (before ++ (n, frame) :: after))
    (hlive : m.CatchesUp F ord info now (before ++ (n, frame) :: after))
    (hapart : ∀ e ∈ before, Apart F e.2 frame) (hlogged : m'.logged = m.logged)
    (hstore : m'.store = ((respond F ord' info' frame).runAt now m.store).2) :
    m'.CatchesUp F ord info now (before ++ after) := by
  have hentry := hp.entries (n, frame) (List.mem_append_right _ (List.mem_cons_self ..))
  have hprocess := run_process F ord info now ord' info' hentry.1 hentry.2 hm.store
  have hnow := replayTurns_now ord info now
  have hfront := runTurns_front F (t := ⟨frame, ord, info, now⟩) (hnow (before.map Prod.snd)) rfl
    (hnow (after.map Prod.snd)) (fun u hu => by
      obtain ⟨v, hv, rfl⟩ := List.mem_map.mp hu
      obtain ⟨e, he, rfl⟩ := List.mem_map.mp hv
      exact hapart e he) hm.store
  rw [CatchesUp, List.map_append, replayTurns_append] at hlive
  rw [CatchesUp, hlogged, hstore, List.map_append, replayTurns_append]
  have hboth : ∀ t ∈ replayTurns ord info now (before.map Prod.snd) ++
      replayTurns ord info now (after.map Prod.snd), t.now = now := by
    intro t ht
    rcases List.mem_append.mp ht with ht | ht
    · exact hnow _ t ht
    · exact hnow _ t ht
  calc (runTurns F (replayTurns ord info now (before.map Prod.snd) ++
        replayTurns ord info now (after.map Prod.snd))
        ((respond F ord' info' frame).runAt now m.store).2).live now.instant
      = (runTurns F (replayTurns ord info now (before.map Prod.snd) ++
        replayTurns ord info now (after.map Prod.snd))
        (Turn.run F ⟨frame, ord, info, now⟩ m.store).2).live now.instant :=
        runTurns_live F hboth (inv_respond F ord' info' now frame hm.store)
          (inv_run F _ hm.store) hprocess
    _ = (runTurns F (replayTurns ord info now (before.map Prod.snd) ++
        ⟨frame, ord, info, now⟩ :: replayTurns ord info now (after.map Prod.snd))
        m.store).live now.instant := hfront.symm
    _ = (runTurns F (replayTurns ord info now m.logged) Store.empty).live now.instant := hlive

end Served

theorem execute_pending {c : ι} {ord' : IterOrder} {info' : Bytes} (hm : m.Inv policy w path)
    (hp : m.Pending pending) (hlive : m.CatchesUp F ord info now pending)
    (horder : InOrder F m (.execute c ord' info' now))
    (h : step F policy w m (.execute c ord' info' now) = some m') :
    ∃ pending', m'.Pending pending' ∧ m'.CatchesUp F ord info now pending' := by
  obtain ⟨frame, ticket, hconn, rfl⟩ := step_execute h
  have hdone : ∀ frame' ticket', Conn.after frame ticket
      ((respond F ord' info' frame).runAt now m.store).1 ≠ .taken frame' ticket' := by
    intro frame' ticket'
    cases ((respond F ord' info' frame).runAt now m.store).1 <;> exact nofun
  cases ticket with
  | none =>
    have hserved : Pending { m with store := ((respond F ord' info' frame).runAt now m.store).2 }
        pending := hp.quiet (fun _ _ _ => Iff.rfl) hp.reads
    refine ⟨pending, hserved.setConn (fun frame' n => ?_) (fun frame' n => hdone frame' (some n))
      fun frame' heq => absurd heq (hdone frame' none), ?_⟩
    · show m.conns c ≠ _
      rw [hconn]
      exact nofun
    · have hquiet := respond_unlogged F ord' info' now frame (hp.reads c frame hconn) hm.store
      exact (runTurns_live F (replayTurns_now ord info now _)
        (inv_respond F ord' info' now frame hm.store) hm.store hquiet).trans hlive
  | some n =>
    obtain ⟨before, after, rfl⟩ := List.append_of_mem ((hp.waiting n frame).mpr ⟨c, hconn⟩)
    have hcross := (List.pairwise_append.mp hp.sorted).2.2
    refine ⟨before ++ after, hp.served hconn hdone rfl, ?_⟩
    refine CatchesUp.served hm hp hlive (fun e he => ?_) rfl rfl
    obtain ⟨c', hc'⟩ := (hp.waiting e.1 e.2).mp (List.mem_append_left _ he)
    exact horder frame n hconn c' e.2 e.1 hc' (hcross e he _ (List.mem_cons_self ..))

theorem reply_pending {c : ι} (hp : m.Pending pending) (hlive : m.CatchesUp F ord info now pending)
    (h : step F policy w m (.reply c) = some m') :
    m'.Pending pending ∧ m'.CatchesUp F ord info now pending := by
  obtain ⟨frame, reply, ticket, hconn, rfl⟩ := step_reply h
  have hacked : Pending { m with acked := m.acked ++ [(frame, ticket)] } pending :=
    hp.quiet (fun _ _ _ => Iff.rfl) hp.reads
  refine ⟨hacked.setConn (fun frame n => ?_) (fun _ _ => nofun) nofun, hlive⟩
  show m.conns c ≠ _
  rw [hconn]
  exact nofun

theorem processor_pending {a : Action ι}
    (ha : a = .receive ∨ a = .write ∨ a = .sync ∨ a = .fsync) (hp : m.Pending pending)
    (hlive : m.CatchesUp F ord info now pending) (h : step F policy w m a = some m') :
    m'.Pending pending ∧ m'.CatchesUp F ord info now pending := by
  rcases ha with rfl | rfl | rfl | rfl
  · obtain ⟨command, channel, -, -, rfl⟩ := step_receive h
    exact ⟨hp.quiet (fun _ _ _ => Iff.rfl) hp.reads, hlive⟩
  · obtain ⟨command, -, rfl⟩ := step_write h
    exact ⟨hp.quiet (fun _ _ _ => Iff.rfl) hp.reads, hlive⟩
  · obtain ⟨command, -, rfl⟩ := step_sync h
    exact ⟨hp.quiet (fun _ _ _ => Iff.rfl) hp.reads, hlive⟩
  · obtain ⟨-, rfl⟩ := step_fsync h
    exact ⟨hp.quiet (fun _ _ _ => Iff.rfl) hp.reads, hlive⟩

theorem step_pending {a : Action ι} (hm : m.Inv policy w path) (hp : m.Pending pending)
    (hlive : m.CatchesUp F ord info now pending) (hstill : Still now a) (hpop : NoSPop a)
    (horder : InOrder F m a) (h : step F policy w m a = some m') :
    ∃ pending', m'.Pending pending' ∧ m'.CatchesUp F ord info now pending' := by
  cases a with
  | take c src => exact take_pending hm hp hlive hpop h
  | execute c ord' info' now' =>
    obtain rfl : now' = now := hstill
    exact execute_pending hm hp hlive horder h
  | reply c => exact ⟨pending, reply_pending hp hlive h⟩
  | receive => exact ⟨pending, processor_pending (Or.inl rfl) hp hlive h⟩
  | write => exact ⟨pending, processor_pending (Or.inr (Or.inl rfl)) hp hlive h⟩
  | sync => exact ⟨pending, processor_pending (Or.inr (Or.inr (Or.inl rfl))) hp hlive h⟩
  | fsync => exact ⟨pending, processor_pending (Or.inr (Or.inr (Or.inr rfl))) hp hlive h⟩

omit [DecidableEq ι] in
theorem start_pending (path : PathBuf) (fs : FileSystem) :
    (start path fs : Machine ι).Pending [] ∧
      (start path fs : Machine ι).CatchesUp F ord info now [] := by
  refine ⟨⟨fun n frame => ?_, .nil, nofun, nofun, nofun⟩, rfl⟩
  exact iff_of_false List.not_mem_nil fun ⟨c, hc⟩ => nomatch hc

end Step

end Machine

open Machine

/-- When every request has its reply and the channel is drained, the log replays
as the dataset of the server. -/
theorem replay_of_settled (F : FloatText) {ι : Type} [DecidableEq ι] (policy : AofFsyncPolicy)
    (path : PathBuf) (fs : FileSystem)
    (hempty : ∀ bytes, fs.read path = some bytes → bytes = []) (now : Reading) (m : Machine ι)
    (h : Runs (step F policy (AofWriter.new path fs).1)
      (fun m a => Still now a ∧ NoSPop a ∧ InOrder F m a) (start path fs) m)
    (hsettled : m.Settled) (hhand : m.hand = .empty) (hchannel : m.channel = [])
    (ord : IterOrder) (info : Bytes) :
    ∃ n s, (replay F ord info m.fs path).runAt now Store.empty = (.ok n, s) ∧
      s.live now.instant = m.store.live now.instant := by
  have hinv : m.Inv policy (AofWriter.new path fs).1 path ∧
      ∃ pending, m.Pending pending ∧ m.CatchesUp F ord info now pending := by
    refine runs_induction (I := fun m => m.Inv policy (AofWriter.new path fs).1 path ∧
      ∃ pending, m.Pending pending ∧ m.CatchesUp F ord info now pending)
      ⟨start_inv path fs hempty, [], start_pending path fs⟩ ?_ h
    rintro m a m' ⟨hm, pending, hp, hlive⟩ ⟨hstill, hpop, horder⟩ hstep
    exact ⟨step_inv hm hstep, step_pending hm hp hlive hstill hpop horder hstep⟩
  obtain ⟨hm, pending, hp, hlive⟩ := hinv
  have hnone : pending = [] := by
    apply List.eq_nil_iff_forall_not_mem.mpr
    rintro ⟨n, frame⟩ hmem
    obtain ⟨c, hc⟩ := (hp.waiting n frame).mp hmem
    rcases hsettled c with hidle | hclosed
    · cases hidle.symm.trans hc
    · cases hclosed.symm.trans hc
  subst hnone
  obtain ⟨durable, unsynced, hlogged, hwritten, -, -⟩ := hm.spelled
  have hread : m.fs.read path = some (m.logged.flatMap encode) := by
    rw [FileSystem.read, hm.name, Option.map_some, hwritten, hlogged, hhand, hchannel]
    simp [Hand.unwritten]
  exact ⟨m.logged.length, _, replay_turns F ord info now hm.wire hm.entries hread, hlive.symm⟩

/-! ### Two SETs -/

namespace LogOrder

open Durability (path)

def now : Reading := ⟨0, 0⟩

def set (key value : String) : Value := commandValue "SET" [Str.utf8 key, Str.utf8 value]

/-- The second client is served first. -/
def crossed (first second : Value) : List (Action Bool) :=
  [.take true (encode first), .take false (encode second), .execute false .sorted [] now,
    .execute true .sorted [] now, .reply false, .reply true, .receive, .write, .receive, .write]

theorem noSPop_take {c : Bool} {key value : String}
    (hdecode : decode (encode (set key value)) = (.ok (some (set key value)), [])) :
    NoSPop (.take c (encode (set key value))) := by
  intro frame rest hframe
  rw [hdecode] at hframe
  cases hframe
  show ¬ toAsciiUppercase (Str.utf8 "SET") = Str.utf8 "SPOP"
  decide

theorem apart_set : Apart noFloats (set "k" "a") (set "j" "b") := by
  rintro key ⟨⟨cmd, hcmd, hkey⟩, cmd', hcmd', hkey'⟩
  have hparse : ParsesTo noFloats (set "k" "a") (.set (Str.lit "k") (Str.utf8 "a") none .none) :=
    ⟨_, rfl, rfl⟩
  have hparse' : ParsesTo noFloats (set "j" "b") (.set (Str.lit "j") (Str.utf8 "b") none .none) :=
    ⟨_, rfl, rfl⟩
  rw [parsesTo_unique noFloats hcmd hparse] at hkey
  rw [parsesTo_unique noFloats hcmd' hparse'] at hkey'
  have hk : key = Str.lit "k" := List.mem_singleton.mp hkey
  have hj : key = Str.lit "j" := List.mem_singleton.mp hkey'
  rw [hk] at hj
  exact absurd hj (by decide)

abbrev stepNo : Machine Bool → Action Bool → Option (Machine Bool) :=
  step noFloats .no (AofWriter.new path .empty).1

end LogOrder

open LogOrder Durability

theorem replay_of_settled_apart : ∃ m : Machine Bool,
    Runs stepNo (fun m a => Still now a ∧ NoSPop a ∧ InOrder noFloats m a) (start path .empty) m ∧
    m.Settled ∧ ∃ n s, (replay noFloats .sorted [] m.fs path).runAt now Store.empty = (.ok n, s) ∧
      s.live 0 = m.store.live 0 := by
  have hallowed : Allowed stepNo (fun m a => Still now a ∧ NoSPop a ∧ InOrder noFloats m a)
      (crossed (set "k" "a") (set "j" "b")) (start path .empty) := by
    refine ⟨⟨trivial, noSPop_take rfl, trivial⟩, ⟨trivial, noSPop_take rfl, trivial⟩,
      ⟨rfl, trivial, ?_⟩, ⟨rfl, trivial, ?_⟩, ⟨trivial, trivial, trivial⟩,
      ⟨trivial, trivial, trivial⟩, ⟨trivial, trivial, trivial⟩, ⟨trivial, trivial, trivial⟩,
      ⟨trivial, trivial, trivial⟩, ⟨trivial, trivial, trivial⟩, trivial⟩
    · intro frame n hconn c' frame' n' hconn' hlt
      have hthis : Conn.taken (set "j" "b") (some 1) = .taken frame (some n) := hconn
      obtain ⟨rfl, hn⟩ := Conn.taken.inj hthis
      cases c' with
      | true =>
        have hother : Conn.taken (set "k" "a") (some 0) = .taken frame' (some n') := hconn'
        obtain ⟨rfl, -⟩ := Conn.taken.inj hother
        exact apart_set
      | false =>
        have hother : Conn.taken (set "j" "b") (some 1) = .taken frame' (some n') := hconn'
        have hn' := Option.some.inj (Conn.taken.inj hother).2
        have hn := Option.some.inj hn
        omega
    · intro frame n hconn c' frame' n' hconn' hlt
      have hthis : Conn.taken (set "k" "a") (some 0) = .taken frame (some n) := hconn
      have hn := Option.some.inj (Conn.taken.inj hthis).2
      omega
  obtain ⟨m, hm⟩ : ∃ m, System.follow stepNo (crossed (set "k" "a") (set "j" "b"))
      (start path .empty) = some m := ⟨_, rfl⟩
  have hruns := runs_follow hallowed hm
  have hsettled : m.Settled := by
    intro c
    cases c
    · exact Or.inl (eq_of_follow (f := fun m => m.conns false) hm rfl)
    · exact Or.inl (eq_of_follow (f := fun m => m.conns true) hm rfl)
  have hhand := eq_of_follow (f := hand) hm rfl
  have hchannel := eq_of_follow (f := channel) hm rfl
  exact ⟨m, hruns, hsettled, replay_of_settled noFloats .no path .empty (fun _ h => nomatch h) now m
    hruns hsettled hhand hchannel .sorted []⟩

theorem log_order_crossed : ∃ m : Machine Bool,
    Runs stepNo (fun _ a => Still now a ∧ NoSPop a) (start path .empty) m ∧
    m.Settled ∧ m.hand = .empty ∧ m.channel = [] ∧
    ∀ n s, (replay noFloats .sorted [] m.fs path).runAt now Store.empty = (.ok n, s) →
      s.live 0 ≠ m.store.live 0 := by
  have hallowed : Allowed stepNo (fun _ a => Still now a ∧ NoSPop a)
      (crossed (set "k" "a") (set "k" "b")) (start path .empty) :=
    ⟨⟨trivial, noSPop_take rfl⟩, ⟨trivial, noSPop_take rfl⟩, ⟨rfl, trivial⟩, ⟨rfl, trivial⟩,
      ⟨trivial, trivial⟩, ⟨trivial, trivial⟩, ⟨trivial, trivial⟩, ⟨trivial, trivial⟩,
      ⟨trivial, trivial⟩, ⟨trivial, trivial⟩, trivial⟩
  obtain ⟨m, hm⟩ : ∃ m, System.follow stepNo (crossed (set "k" "a") (set "k" "b"))
      (start path .empty) = some m := ⟨_, rfl⟩
  have hsettled : m.Settled := by
    intro c
    cases c
    · exact Or.inl (eq_of_follow (f := fun m => m.conns false) hm rfl)
    · exact Or.inl (eq_of_follow (f := fun m => m.conns true) hm rfl)
  have hstore : m.store.live 0 (Str.lit "k") = some ⟨.string (Str.utf8 "a"), none⟩ :=
    eq_of_follow (f := fun m => m.store.live 0 (Str.lit "k")) hm rfl
  have hreplayed : ((replay noFloats .sorted [] m.fs path).runAt now Store.empty).2.live 0
      (Str.lit "k") = some ⟨.string (Str.utf8 "b"), none⟩ :=
    eq_of_follow (f := fun m => ((replay noFloats .sorted [] m.fs path).runAt now
      Store.empty).2.live 0 (Str.lit "k")) hm rfl
  refine ⟨m, runs_follow hallowed hm, hsettled, eq_of_follow (f := hand) hm rfl,
    eq_of_follow (f := channel) hm rfl, fun n s hreplay hlive => ?_⟩
  rw [hreplay, hlive, hstore] at hreplayed
  have hbytes : Str.utf8 "a" = Str.utf8 "b" :=
    StoredValue.string.inj (Entry.mk.inj (Option.some.inj hreplayed)).1
  exact absurd hbytes (by decide)

end FireRedis
