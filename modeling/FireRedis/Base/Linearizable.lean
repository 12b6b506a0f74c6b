import FireRedis.Base.Program
import FireRedis.Base.Runs
import FireRedis.Base.Simulation

/-!
# Requests that take effect at once

Clients send requests, each a program on shared state, and every call of a
program is a step of its own. A request takes effect at once where one of its
calls does all that the request does alone, the calls before it change nothing,
and those after it change neither the state nor the outcome. The outcomes are
then those of the requests executed one by one, each of them between the moment
at which it was sent and the moment at which it ended.
-/

namespace Program

variable {C : Type} {R : C → Type} {ε α σ τ : Type} (run : τ → (c : C) → σ → R c × σ)
  (I : σ → Prop)

/-- The program changes nothing and has this outcome, whatever others do within `I`. -/
def Settled (r : Except ε α) : Program C R ε α → Prop
  | done a => r = .ok a
  | fault e => r = .error e
  | call c k => ∀ t s, I s → (run t c s).2 = s ∧ (k (run t c s).1).Settled r

/-- What `spec` does is still to be done, in one call that leads to a state of `P`. -/
def AtOnce (P : σ → Prop) (spec : σ → Except ε α × σ) : Program C R ε α → Prop
  | done a => ∀ s, I s → spec s = (.ok a, s)
  | fault e => ∀ s, I s → spec s = (.error e, s)
  | call c k => ∀ t s, I s → P (run t c s).2 →
      (run t c s).2 = s ∧ (k (run t c s).1).AtOnce P spec ∨
      (run t c s).2 = (spec s).2 ∧ I (spec s).2 ∧ (k (run t c s).1).Settled run I (spec s).1

/-! ### Programs that take effect at once as they do alone -/

variable {run I} {P : σ → Prop} {c : C} {k : R c → Program C R ε α} {t₀ : τ}

theorem Settled.exec {r : Except ε α} {p : Program C R ε α} (h : p.Settled run I r) (t : τ) {s : σ}
    (hs : I s) : p.exec (run t) s = (r, s) := by
  induction p with
  | done a =>
    rw [h]
    rfl
  | fault e =>
    rw [h]
    rfl
  | call c k ih =>
    obtain ⟨hsame, hrest⟩ := h t s hs
    rw [Program.exec, hsame]
    exact ih _ hrest

theorem AtOnce.congr {spec spec' : σ → Except ε α × σ} {p : Program C R ε α}
    (h : p.AtOnce run I P spec) (hspec : ∀ s, I s → spec s = spec' s) :
    p.AtOnce run I P spec' := by
  induction p with
  | done a => exact fun s hs => (hspec s hs).symm.trans (h s hs)
  | fault e => exact fun s hs => (hspec s hs).symm.trans (h s hs)
  | call c k ih =>
    intro t s hs hnext
    rcases h t s hs hnext with ⟨hsame, hrest⟩ | heffect
    · exact Or.inl ⟨hsame, ih _ hrest⟩
    · rw [hspec s hs] at heffect
      exact Or.inr heffect

theorem AtOnce.mono {P' : σ → Prop} {spec : σ → Except ε α × σ} {p : Program C R ε α}
    (h : p.AtOnce run I P spec) (hP : ∀ s, P' s → P s) : p.AtOnce run I P' spec := by
  induction p with
  | done a => exact h
  | fault e => exact h
  | call c k ih =>
    intro t s hs hnext
    exact (h t s hs (hP _ hnext)).imp_left fun hrest => ⟨hrest.1, ih _ hrest.2⟩

/-- The first call changes nothing, and its answer makes no difference. -/
theorem AtOnce.silent {p : Program C R ε α}
    (h : ∀ t s, I s → (run t c s).2 = s ∧ k (run t c s).1 = p)
    (hp : p.AtOnce run I P (p.exec (run t₀))) :
    (call c k).AtOnce run I P ((call c k).exec (run t₀)) := by
  intro t s hs _
  obtain ⟨hsame, hrest⟩ := h t s hs
  refine Or.inl ⟨hsame, ?_⟩
  rw [hrest]
  refine hp.congr fun s' hs' => ?_
  obtain ⟨hsame', hrest'⟩ := h t₀ s' hs'
  rw [Program.exec, hsame', hrest']

/-- The first call is the one that does everything. -/
theorem AtOnce.effect
    (h : ∀ t s, I s → P (run t c s).2 → run t c s = run t₀ c s ∧ I (run t c s).2 ∧
      ∃ r, (k (run t c s).1).Settled run I r) :
    (call c k).AtOnce run I P ((call c k).exec (run t₀)) := by
  intro t s hs hnext
  obtain ⟨hclock, hin, r, hrest⟩ := h t s hs hnext
  have halone : (call c k).exec (run t₀) s = (r, (run t c s).2) := by
    rw [Program.exec, ← hclock]
    exact hrest.exec t₀ hin
  rw [halone]
  exact Or.inr ⟨rfl, hin, hrest⟩

end Program

/-- A request is sent, takes effect, and ends with an outcome. -/
inductive Mark (ι K O : Type) where
  | sent (i : ι) (k : K)
  | effect (i : ι) (k : K) (o : O)
  | ended (i : ι) (k : K) (o : O)

namespace Mark

variable {ι K O σ : Type}

def client : Mark ι K O → ι
  | sent i _ => i
  | effect i _ _ => i
  | ended i _ _ => i

/-- An effect is not seen. -/
def shown : Mark ι K O → Bool
  | effect _ _ _ => false
  | _ => true

inductive Acts (spec : K → σ → O × σ) : σ → Mark ι K O → σ → Prop
  | sent (s : σ) (i : ι) (k : K) : Acts spec s (.sent i k) s
  | effect (s : σ) (i : ι) (k : K) : Acts spec s (.effect i k (spec k s).1) (spec k s).2
  | ended (s : σ) (i : ι) (k : K) (o : O) : Acts spec s (.ended i k o) s

end Mark

/-- Where a client is between two marks. -/
inductive Phase (K ε V : Type) where
  | idle
  | sent (k : K)
  | acted (k : K) (o : Except ε V)
  | gone

inductive Phase.Moves {ι K ε V : Type} :
    Phase K ε V → Mark ι K (Except ε V) → Phase K ε V → Prop
  | send (i : ι) (k : K) : Moves .idle (.sent i k) (.sent k)
  | act (i : ι) (k : K) (o : Except ε V) : Moves (.sent k) (.effect i k o) (.acted k o)
  | reply (i : ι) (k : K) (v : V) : Moves (.acted k (.ok v)) (.ended i k (.ok v)) .idle
  | stop (i : ι) (k : K) (e : ε) : Moves (.acted k (.error e)) (.ended i k (.error e)) .gone

/-- Each request of the log can be given one effect, between its two marks, so that
the effects lead from `s₀` to `s` with the outcomes of the log. -/
def Linearizable {ι K ε V σ : Type} [DecidableEq ι] (spec : K → σ → Except ε V × σ) (s₀ : σ)
    (log : List (Mark ι K (Except ε V))) (s : σ) : Prop :=
  ∃ marks, marks.filter Mark.shown = log ∧ Simulation.Allows (Mark.Acts spec) s₀ marks s ∧
    ∀ i, ∃ phase, Simulation.Allows Phase.Moves .idle (marks.filter (·.client = i)) phase

/-! ### Clients of one service -/

inductive Client (K C : Type) (R : C → Type) (ε V : Type) where
  | idle
  | busy (k : K) (prog : Program C R ε V)
  | gone

structure Service (ι K C : Type) (R : C → Type) (ε V σ : Type) where
  state : σ
  clients : ι → Client K C R ε V
  log : List (Mark ι K (Except ε V))

namespace Service

inductive Turn (ι K τ : Type) where
  | send (i : ι) (k : K)
  | call (i : ι) (t : τ)
  | finish (i : ι)

variable {ι K C : Type} {R : C → Type} {ε V σ τ : Type} [DecidableEq ι]
  (run : τ → (c : C) → σ → R c × σ) (handle : K → Program C R ε V)

def start (s : σ) : Service ι K C R ε V σ := ⟨s, fun _ => .idle, []⟩

def step (m : Service ι K C R ε V σ) : Turn ι K τ → Option (Service ι K C R ε V σ)
  | .send i k =>
    match m.clients i with
    | .idle => some ⟨m.state, Function.update m.clients i (.busy k (handle k)),
        m.log ++ [.sent i k]⟩
    | _ => none
  | .call i t =>
    match m.clients i with
    | .busy k (.call c f) =>
      some ⟨(run t c m.state).2, Function.update m.clients i (.busy k (f (run t c m.state).1)),
        m.log⟩
    | _ => none
  | .finish i =>
    match m.clients i with
    | .busy k (.done v) =>
      some ⟨m.state, Function.update m.clients i .idle, m.log ++ [.ended i k (.ok v)]⟩
    | .busy k (.fault e) =>
      some ⟨m.state, Function.update m.clients i .gone, m.log ++ [.ended i k (.error e)]⟩
    | _ => none

/-- A request is sent only if `fits`, and its calls lead to states of `P`. -/
def guard (fits : K → Prop) (P : K → σ → Prop) (m : Service ι K C R ε V σ) : Turn ι K τ → Prop
  | .send _ k => fits k
  | .call i t => ∀ k c f, m.clients i = .busy k (.call c f) → P k (run t c m.state).2
  | .finish _ => True

section Steps

variable {run handle} {m m' : Service ι K C R ε V σ} {i : ι}

theorem step_send {k : K} (h : step run handle m (.send i k) = some m') : m.clients i = .idle ∧
    m' = ⟨m.state, Function.update m.clients i (.busy k (handle k)), m.log ++ [.sent i k]⟩ := by
  rw [step] at h
  split at h
  · exact ⟨‹_›, (Option.some.inj h).symm⟩
  · cases h

theorem step_call {t : τ} (h : step run handle m (.call i t) = some m') :
    ∃ k c f, m.clients i = .busy k (.call c f) ∧ m' = ⟨(run t c m.state).2,
      Function.update m.clients i (.busy k (f (run t c m.state).1)), m.log⟩ := by
  rw [step] at h
  split at h
  · exact ⟨_, _, _, ‹_›, (Option.some.inj h).symm⟩
  · cases h

theorem step_finish (h : step run handle m (.finish i : Turn ι K τ) = some m') :
    (∃ k v, m.clients i = .busy k (.done v) ∧
      m' = ⟨m.state, Function.update m.clients i .idle, m.log ++ [.ended i k (.ok v)]⟩) ∨
    ∃ k e, m.clients i = .busy k (.fault e) ∧
      m' = ⟨m.state, Function.update m.clients i .gone, m.log ++ [.ended i k (.error e)]⟩ := by
  rw [step] at h
  split at h
  · exact Or.inl ⟨_, _, ‹_›, (Option.some.inj h).symm⟩
  · exact Or.inr ⟨_, _, ‹_›, (Option.some.inj h).symm⟩
  · cases h

end Steps

/-! ### Where to put the effects -/

section Effects

variable (I : σ → Prop) (P : K → σ → Prop) (spec : K → σ → Except ε V × σ)

/-- The client is where the marks say that it is. -/
inductive Stage : Phase K ε V → Client K C R ε V → Prop
  | idle : Stage .idle .idle
  | sent (k : K) (prog : Program C R ε V) (h : prog.AtOnce run I (P k) (spec k)) :
    Stage (.sent k) (.busy k prog)
  | acted (k : K) (o : Except ε V) (prog : Program C R ε V) (h : prog.Settled run I o) :
    Stage (.acted k o) (.busy k prog)
  | gone : Stage .gone .gone

structure Inv (s₀ : σ) (m : Service ι K C R ε V σ) (marks : List (Mark ι K (Except ε V)))
    (phases : ι → Phase K ε V) : Prop where
  log : marks.filter Mark.shown = m.log
  state : Simulation.Allows (Mark.Acts spec) s₀ marks m.state
  within : I m.state
  moves : ∀ i, Simulation.Allows Phase.Moves .idle (marks.filter (·.client = i)) (phases i)
  stage : ∀ i, Stage run I P spec (phases i) (m.clients i)

variable {run handle I P spec} {s₀ : σ} {m m' : Service ι K C R ε V σ}
  {marks : List (Mark ι K (Except ε V))} {phases : ι → Phase K ε V} {i : ι}

/-- More marks of one client. -/
theorem Inv.extend (hm : Inv run I P spec s₀ m marks phases)
    (more : List (Mark ι K (Except ε V))) {s : σ} {now phase : Phase K ε V}
    {client : Client K C R ε V} (hphase : phases i = now) (hclient : ∀ e ∈ more, e.client = i)
    (hstate : Simulation.Allows (Mark.Acts spec) m.state more s) (hwithin : I s)
    (hmoves : Simulation.Allows Phase.Moves now more phase)
    (hstage : Stage run I P spec phase client) :
    ∃ marks' phases', Inv run I P spec s₀ ⟨s, Function.update m.clients i client,
      m.log ++ more.filter Mark.shown⟩ marks' phases' := by
  refine ⟨marks ++ more, Function.update phases i phase, ?_, hm.state.append hstate, hwithin,
    fun j => ?_, fun j => ?_⟩
  · rw [List.filter_append, hm.log]
  · rw [List.filter_append]
    by_cases hj : j = i
    · subst hj
      have hall : more.filter (·.client = j) = more :=
        List.filter_eq_self.mpr fun e he => by simp [hclient e he]
      rw [hall, Function.update_self]
      exact (hm.moves j).append (hphase ▸ hmoves)
    · have hnone : more.filter (·.client = j) = [] := by
        apply List.filter_eq_nil_iff.mpr
        intro e he
        rw [hclient e he, decide_eq_true_eq]
        exact fun h => hj h.symm
      rw [hnone, List.append_nil, Function.update_of_ne hj]
      exact hm.moves j
  · by_cases hj : j = i
    · subst hj
      simp only [Function.update_self]
      exact hstage
    · simp only [Function.update_of_ne hj]
      exact hm.stage j

theorem Inv.send (hm : Inv run I P spec s₀ m marks phases) {k : K}
    (hk : (handle k).AtOnce run I (P k) (spec k))
    (h : step run handle m (.send i k) = some m') :
    ∃ marks' phases', Inv run I P spec s₀ m' marks' phases' := by
  obtain ⟨hidle, rfl⟩ := step_send h
  have hnow := hm.stage i
  rw [hidle] at hnow
  generalize hphase : phases i = now at hnow
  cases hnow with
  | idle =>
    exact hm.extend [.sent i k] hphase (by simp [Mark.client])
      (.cons (.sent ..) (.nil _)) hm.within (.cons (.send i k) (.nil _)) (.sent k _ hk)

/-- A call before or after the effect changes nothing that is seen. -/
theorem Inv.quiet (hm : Inv run I P spec s₀ m marks phases) {phase : Phase K ε V}
    {client : Client K C R ε V} (hphase : phases i = phase)
    (hstage : Stage run I P spec phase client) : ∃ marks' phases', Inv run I P spec s₀
      ⟨m.state, Function.update m.clients i client, m.log⟩ marks' phases' := by
  have hext := hm.extend [] hphase (by simp) (.nil _) hm.within (.nil _) hstage
  rwa [List.filter_nil, List.append_nil] at hext

theorem Inv.call (hm : Inv run I P spec s₀ m marks phases) {t : τ}
    (hguard : ∀ k c f, m.clients i = .busy k (.call c f) → P k (run t c m.state).2)
    (h : step run handle m (.call i t) = some m') :
    ∃ marks' phases', Inv run I P spec s₀ m' marks' phases' := by
  obtain ⟨k, c, f, hbusy, rfl⟩ := step_call h
  have hnext := hguard k c f hbusy
  have hnow := hm.stage i
  rw [hbusy] at hnow
  generalize hphase : phases i = now at hnow
  cases hnow with
  | sent k prog hprog =>
    rcases hprog t m.state hm.within hnext with ⟨hsame, hrest⟩ | ⟨heffect, hin, hrest⟩
    · rw [hsame]
      exact hm.quiet hphase (.sent k _ hrest)
    · rw [heffect]
      have hext := hm.extend [.effect i k (spec k m.state).1] hphase
        (by simp [Mark.client]) (.cons (.effect ..) (.nil _)) hin (.cons (.act i k _) (.nil _))
        (.acted k _ _ hrest)
      have hshown : [Mark.effect i k (spec k m.state).1].filter Mark.shown = [] := rfl
      rwa [hshown, List.append_nil] at hext
  | acted k o prog hprog =>
    obtain ⟨hsame, hrest⟩ := hprog t m.state hm.within
    rw [hsame]
    exact hm.quiet hphase (.acted k o _ hrest)

/-- The end of a program that may have taken effect before. -/
theorem Inv.finished (hm : Inv run I P spec s₀ m marks phases) {k : K} {prog : Program C R ε V}
    {o : Except ε V} {phase : Phase K ε V} {client : Client K C R ε V}
    (hbusy : m.clients i = .busy k prog)
    (hpending : prog.AtOnce run I (P k) (spec k) → spec k m.state = (o, m.state))
    (hsettled : ∀ o', prog.Settled run I o' → o' = o)
    (hend : Phase.Moves (.acted k o) (.ended i k o) phase)
    (hstage : Stage run I P spec phase client) : ∃ marks' phases', Inv run I P spec s₀
      ⟨m.state, Function.update m.clients i client, m.log ++ [.ended i k o]⟩ marks' phases' := by
  have hnow := hm.stage i
  rw [hbusy] at hnow
  generalize hphase : phases i = now at hnow
  cases hnow with
  | sent k prog hprog =>
    have heffect : Mark.Acts spec m.state (.effect i k o) m.state := by
      have hact : Mark.Acts spec m.state (.effect i k (spec k m.state).1) (spec k m.state).2 :=
        .effect m.state i k
      rwa [hpending hprog] at hact
    exact hm.extend [.effect i k o, .ended i k o] hphase (by simp [Mark.client])
      (.cons heffect (.cons (.ended ..) (.nil _))) hm.within
      (.cons (.act i k o) (.cons hend (.nil _))) hstage
  | acted k o' prog hprog =>
    obtain rfl := hsettled o' hprog
    exact hm.extend [.ended i k o'] hphase (by simp [Mark.client])
      (.cons (.ended ..) (.nil _)) hm.within (.cons hend (.nil _)) hstage

theorem Inv.finish (hm : Inv run I P spec s₀ m marks phases)
    (h : step run handle m (.finish i : Turn ι K τ) = some m') :
    ∃ marks' phases', Inv run I P spec s₀ m' marks' phases' := by
  rcases step_finish h with ⟨k, v, hbusy, rfl⟩ | ⟨k, e, hbusy, rfl⟩
  · exact hm.finished hbusy (fun hprog => hprog m.state hm.within) (fun _ h => h)
      (.reply i k v) .idle
  · exact hm.finished hbusy (fun hprog => hprog m.state hm.within) (fun _ h => h)
      (.stop i k e) .gone

/-- Requests that take effect at once are linearizable, in every state of every run. -/
theorem linearizable {fits : K → Prop}
    (hhandle : ∀ k, fits k → (handle k).AtOnce run I (P k) (spec k)) (hs₀ : I s₀)
    (h : System.Runs (step run handle) (guard run fits P) (start s₀) m) :
    Linearizable spec s₀ m.log m.state ∧ I m.state := by
  have hinv : ∃ marks phases, Inv run I P spec s₀ m marks phases := by
    refine System.runs_induction (I := fun m => ∃ marks phases, Inv run I P spec s₀ m marks phases)
      ?_ ?_ h
    · exact ⟨[], fun _ => .idle, rfl, .nil _, hs₀, fun _ => .nil _, fun _ => .idle⟩
    · rintro m turn m' ⟨marks, phases, hm⟩ hguard hstep
      cases turn with
      | send i k => exact hm.send (hhandle k hguard) hstep
      | call i t => exact hm.call hguard hstep
      | finish i => exact hm.finish hstep
  obtain ⟨marks, phases, hm⟩ := hinv
  exact ⟨⟨marks, hm.log, hm.state, fun i => ⟨phases i, hm.moves i⟩⟩, hm.within⟩

end Effects

end Service
