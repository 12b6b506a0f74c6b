import FireRedis.Base.Program
import FireRedis.Base.Runs

/-!
# Programs that take turns on shared state

Each party of a pool is in the middle of a program. In one step a party makes
its next call on the shared state, in an environment such as a clock reading; a
guard says which steps a run may take. An invariant is kept by each of them.
-/

namespace Program

variable {C : Type} {R : C → Type} {ε α β : Type}

def next : Program C R ε α → Option C
  | call c _ => some c
  | _ => none

/-- Every call of the program is allowed, whatever the calls are answered. -/
def Calls (A : C → Prop) : Program C R ε α → Prop
  | call c k => A c ∧ ∀ r, (k r).Calls A
  | _ => True

section Calls

variable {A : C → Prop}

theorem calls_pure (a : α) : (pure a : Program C R ε α).Calls A := trivial

theorem calls_ask {c : C} (h : A c) : (ask c : Program C R ε (R c)).Calls A :=
  ⟨h, fun _ => trivial⟩

theorem Calls.bind {p : Program C R ε α} {f : α → Program C R ε β} (hp : p.Calls A)
    (hf : ∀ a, (f a).Calls A) : (p >>= f).Calls A := by
  show (p.bind f).Calls A
  induction p with
  | done a => exact hf a
  | fault e => trivial
  | call c k ih => exact ⟨hp.1, fun r => ih r (hp.2 r)⟩

theorem Calls.exec {σ : Type} {run : (c : C) → σ → R c × σ} {I : σ → Prop}
    (hcall : ∀ c s, A c → I s → I (run c s).2) {p : Program C R ε α} (hp : p.Calls A) {s : σ}
    (hs : I s) : I (p.exec run s).2 := by
  induction p generalizing s with
  | done a => exact hs
  | fault e => exact hs
  | call c k ih => exact ih _ (hp.2 _) (hcall c s hp.1 hs)

theorem Calls.imp {A' : C → Prop} {p : Program C R ε α} (hp : p.Calls A)
    (h : ∀ c, A c → A' c) : p.Calls A' := by
  induction p with
  | done a => trivial
  | fault e => trivial
  | call c k ih => exact ⟨h c hp.1, fun r => ih r (hp.2 r)⟩

theorem Calls.foldlM {f : β → α → Program C R ε β} (items : List α) (init : β)
    (h : ∀ b, ∀ a ∈ items, (f b a).Calls A) : (items.foldlM f init).Calls A := by
  induction items generalizing init with
  | nil => exact calls_pure init
  | cons a items ih =>
    rw [List.foldlM_cons]
    exact (h init a (List.mem_cons_self ..)).bind fun b =>
      ih b fun b x hx => h b x (List.mem_cons_of_mem _ hx)

end Calls

/-- Unless it stops with a fault, the program comes to one of the targets by allowed calls. -/
inductive Leads (A : C → Prop) (target : Program C R ε α → Prop) : Program C R ε α → Prop
  | here (p : Program C R ε α) (h : target p) : Leads A target p
  | fault (e : ε) : Leads A target (.fault e)
  | call (c : C) (k : R c → Program C R ε α) (hc : A c) (h : ∀ r, Leads A target (k r)) :
      Leads A target (.call c k)

theorem Leads.bind {A : C → Prop} {target : Program C R ε β → Prop} {p : Program C R ε α}
    {f : α → Program C R ε β} (hp : p.Calls A) (hf : ∀ a, Leads A target (f a)) :
    Leads A target (p >>= f) := by
  show Leads A target (p.bind f)
  induction p with
  | done a => exact hf a
  | fault e => exact .fault e
  | call c k ih => exact .call c _ hp.1 fun r => ih r (hp.2 r)

end Program

/-- A relation that holds at every party survives a change of one party on both sides. -/
theorem update_rel {ι : Type} [DecidableEq ι] {β γ : ι → Type} {r : (i : ι) → β i → γ i → Prop}
    {f : (i : ι) → β i} {g : (i : ι) → γ i} (h : ∀ i, r i (f i) (g i)) (i : ι) {b : β i} {c : γ i}
    (hi : r i b c) (j : ι) : r j (Function.update f i b j) (Function.update g i c j) := by
  by_cases hji : j = i
  · subst hji
    rw [Function.update_self, Function.update_self]
    exact hi
  · rw [Function.update_of_ne hji, Function.update_of_ne hji]
    exact h j

theorem sum_update {ι β M : Type} [Fintype ι] [DecidableEq ι] [AddCommMonoid M] (g : β → M)
    (f : ι → β) (i : ι) (b : β) :
    ∑ j, g (Function.update f i b j) + g (f i) = ∑ j, g (f j) + g b := by
  have hrest : ∑ j ∈ Finset.univ.erase i, g (Function.update f i b j) =
      ∑ j ∈ Finset.univ.erase i, g (f j) := by
    apply Finset.sum_congr rfl
    intro j hj
    rw [Function.update_of_ne (Finset.ne_of_mem_erase hj)]
  rw [← Finset.add_sum_erase _ _ (Finset.mem_univ i), hrest, Function.update_self,
    ← Finset.add_sum_erase _ (fun j => g (f j)) (Finset.mem_univ i), add_comm (g b), add_right_comm,
    add_comm (∑ j ∈ Finset.univ.erase i, g (f j))]

structure Pool (C : Type) (R : C → Type) (ε σ : Type) {ι : Type} (α : ι → Type) where
  state : σ
  progs : (i : ι) → Program C R ε (α i)

namespace Pool

variable {C : Type} {R : C → Type} {ε σ τ ι : Type} {α : ι → Type} [DecidableEq ι]
variable (run : τ → (c : C) → σ → R c × σ)

/-- The party has come to the end of its program. -/
def Replied (p : Pool C R ε σ α) (i : ι) (a : α i) : Prop := p.progs i = .done a

/-- Party `i` makes its next call in the environment `t`, if there is one. -/
def advance (i : ι) (t : τ) (p : Pool C R ε σ α) : Pool C R ε σ α :=
  match p.progs i with
  | .call c k => ⟨(run t c p.state).2, Function.update p.progs i (k (run t c p.state).1)⟩
  | _ => p

/-- A run in which the guard lets each party pass that takes a step. -/
abbrev Runs (guard : Pool C R ε σ α → ι → Prop) (p q : Pool C R ε σ α) : Prop :=
  System.Runs (fun p (turn : ι × τ) => some (advance run turn.1 turn.2 p))
    (fun p turn => guard p turn.1) p q

variable {run}

theorem advance_call {p : Pool C R ε σ α} {i : ι} {c : C} {k : R c → Program C R ε (α i)}
    (h : p.progs i = .call c k) (t : τ) : advance run i t p =
      ⟨(run t c p.state).2, Function.update p.progs i (k (run t c p.state).1)⟩ := by
  rw [advance, h]

theorem advance_state {p : Pool C R ε σ α} {i : ι} {c : C} {k : R c → Program C R ε (α i)}
    (h : p.progs i = .call c k) (t : τ) : (advance run i t p).state = (run t c p.state).2 := by
  rw [advance_call h]

theorem advance_self {p : Pool C R ε σ α} {i : ι} {c : C} {k : R c → Program C R ε (α i)}
    (h : p.progs i = .call c k) (t : τ) :
    (advance run i t p).progs i = k (run t c p.state).1 := by
  rw [advance_call h]
  exact Function.update_self ..

theorem advance_other {p : Pool C R ε σ α} {i j : ι} (hj : j ≠ i) (t : τ) :
    (advance run i t p).progs j = p.progs j := by
  cases hi : p.progs i with
  | call c k =>
    rw [advance_call hi]
    exact Function.update_of_ne hj ..
  | done a => rw [advance, hi]
  | fault e => rw [advance, hi]

theorem advance_ended {p : Pool C R ε σ α} {i : ι} (h : (p.progs i).next = none) (t : τ) :
    advance run i t p = p := by
  rw [advance]
  cases hi : p.progs i with
  | call c k =>
    rw [hi] at h
    cases h
  | done a => rfl
  | fault e => rfl

theorem runs_induction {guard : Pool C R ε σ α → ι → Prop} {I : Pool C R ε σ α → Prop}
    {p q : Pool C R ε σ α} (hinit : I p)
    (hstep : ∀ p i t, I p → guard p i → I (advance run i t p)) (h : Runs run guard p q) : I q := by
  refine System.runs_induction hinit (fun p turn q hp hguard hq => ?_) h
  rw [← Option.some.inj hq]
  exact hstep p turn.1 turn.2 hp hguard

variable (run)

/-- The run in which the listed parties take their turns. -/
def schedule (turns : List (ι × τ)) (p : Pool C R ε σ α) : Pool C R ε σ α :=
  turns.foldl (fun p s => advance run s.1 s.2 p) p

/-- The guard lets every turn of the list pass. -/
def Passes (guard : Pool C R ε σ α → ι → Prop) : List (ι × τ) → Pool C R ε σ α → Prop
  | [], _ => True
  | s :: turns, p => guard p s.1 ∧ Passes guard turns (advance run s.1 s.2 p)

theorem schedule_append (turns turns' : List (ι × τ)) (p : Pool C R ε σ α) :
    schedule run (turns ++ turns') p = schedule run turns' (schedule run turns p) :=
  List.foldl_append

theorem passes_append {guard : Pool C R ε σ α → ι → Prop} {turns turns' : List (ι × τ)}
    {p : Pool C R ε σ α} : Passes run guard (turns ++ turns') p ↔
      Passes run guard turns p ∧ Passes run guard turns' (schedule run turns p) := by
  induction turns generalizing p with
  | nil => exact ⟨fun h => ⟨trivial, h⟩, And.right⟩
  | cons s turns ih =>
    rw [List.cons_append, Passes, Passes, ih, and_assoc]
    rfl

/-- What may depend on all the turns so far. -/
theorem passes_induction {guard : Pool C R ε σ α → ι → Prop} {I : List (ι × τ) → Prop}
    {p : Pool C R ε σ α} (hinit : I [])
    (hstep : ∀ turns s, I turns → guard (schedule run turns p) s.1 → I (turns ++ [s]))
    {turns : List (ι × τ)} (h : Passes run guard turns p) : I turns := by
  induction turns using List.reverseRecOn with
  | nil => exact hinit
  | append_singleton turns s ih =>
    obtain ⟨hturns, hlast, -⟩ := (passes_append run).mp h
    exact hstep turns s (ih hturns) hlast

theorem passes_all (turns : List (ι × τ)) (p : Pool C R ε σ α) :
    Passes run (fun _ _ => True) turns p := by
  induction turns generalizing p with
  | nil => trivial
  | cons s turns ih => exact ⟨trivial, ih _⟩

theorem runs_schedule {guard : Pool C R ε σ α → ι → Prop} {turns : List (ι × τ)}
    {p : Pool C R ε σ α} (h : Passes run guard turns p) :
    Runs run guard p (schedule run turns p) := by
  induction turns generalizing p with
  | nil => exact .refl
  | cons s turns ih => exact .head ⟨s, h.1, rfl⟩ (ih h.2)

end Pool
