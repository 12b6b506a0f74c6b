import Mathlib

/-!
# Programs that make atomic calls

A program ends with a result, stops with a fault, or makes one call on shared
state and goes on with the answer. Each call is one atomic step; `exec` runs a
program alone, every call answered by `run` on the state the last one left.
-/

inductive Program (C : Type) (R : C → Type) (ε α : Type) : Type
  | done (a : α)
  | fault (e : ε)
  | call (c : C) (k : R c → Program C R ε α)

namespace Program

variable {C : Type} {R : C → Type} {ε α β γ σ : Type}

def bind : Program C R ε α → (α → Program C R ε β) → Program C R ε β
  | done a, f => f a
  | fault e, _ => fault e
  | call c k, f => call c fun r => (k r).bind f

instance : Monad (Program C R ε) where
  pure := done
  bind := bind

theorem bind_done (p : Program C R ε α) : p.bind done = p := by
  induction p with
  | done a => rfl
  | fault e => rfl
  | call c k ih => rw [bind, funext ih]

theorem bind_assoc (p : Program C R ε α) (f : α → Program C R ε β)
    (g : β → Program C R ε γ) : (p.bind f).bind g = p.bind fun a => (f a).bind g := by
  induction p with
  | done a => rfl
  | fault e => rfl
  | call c k ih =>
    simp only [bind]
    rw [funext ih]

instance : LawfulMonad (Program C R ε) :=
  LawfulMonad.mk' (Program C R ε) bind_done (fun _ _ => rfl) bind_assoc

/-- The program that makes one call and returns its answer. -/
def ask (c : C) : Program C R ε (R c) := call c done

variable (run : (c : C) → σ → R c × σ)

def exec : Program C R ε α → σ → Except ε α × σ
  | done a, s => (.ok a, s)
  | fault e, s => (.error e, s)
  | call c k, s => (k (run c s).1).exec (run c s).2

@[simp] theorem exec_pure (a : α) (s : σ) :
    exec run (pure a : Program C R ε α) s = (.ok a, s) := rfl

@[simp] theorem exec_fault (e : ε) (s : σ) :
    exec run (fault e : Program C R ε α) s = (.error e, s) := rfl

@[simp] theorem exec_ask (c : C) (s : σ) :
    exec run (ask c : Program C R ε (R c)) s = (.ok (run c s).1, (run c s).2) := rfl

theorem exec_bind (p : Program C R ε α) (f : α → Program C R ε β) (s : σ) :
    exec run (p >>= f) s =
      match exec run p s with
      | (.ok a, s') => exec run (f a) s'
      | (.error e, s') => (.error e, s') := by
  show exec run (p.bind f) s = _
  induction p generalizing s with
  | done a => rfl
  | fault e => rfl
  | call c k ih => exact ih (run c s).1 (run c s).2

theorem exec_bind_ok {p : Program C R ε α} {f : α → Program C R ε β} {s s' : σ} {a : α}
    (h : exec run p s = (.ok a, s')) : exec run (p >>= f) s = exec run (f a) s' := by
  rw [exec_bind, h]

/-! ### Results

What a program can end with, whatever its calls are answered. -/

def Returns (q : α → Prop) : Program C R ε α → Prop
  | done a => q a
  | fault _ => True
  | call _ k => ∀ r, (k r).Returns q

section Returns

variable {q : α → Prop} {q' : β → Prop}

theorem returns_pure {a : α} (h : q a) : (pure a : Program C R ε α).Returns q := h

theorem Returns.bind {p : Program C R ε α} {f : α → Program C R ε β} (hp : p.Returns q)
    (hf : ∀ a, q a → (f a).Returns q') : (p >>= f).Returns q' := by
  show (p.bind f).Returns q'
  induction p with
  | done a => exact hf a hp
  | fault e => trivial
  | call c k ih => exact fun r => ih r (hp r)

theorem Returns.imp {r : α → Prop} {p : Program C R ε α} (hp : p.Returns q)
    (h : ∀ a, q a → r a) : p.Returns r := by
  induction p with
  | done a => exact h a hp
  | fault e => trivial
  | call c k ih => exact fun x => ih x (hp x)

theorem Returns.any (p : Program C R ε α) : p.Returns fun _ => True := by
  induction p with
  | done a => trivial
  | fault e => trivial
  | call c k ih => exact ih

theorem Returns.last {p : Program C R ε α} {f : α → Program C R ε β}
    (hf : ∀ a, (f a).Returns q') : (p >>= f).Returns q' :=
  (Returns.any p).bind fun a _ => hf a

theorem Returns.mapM {f : α → Program C R ε β} {items : List α}
    (h : ∀ a ∈ items, (f a).Returns q') :
    (items.mapM f).Returns fun bs => ∀ b ∈ bs, q' b := by
  induction items with
  | nil => exact returns_pure nofun
  | cons a items ih =>
    rw [List.mapM_cons]
    apply (h a (List.mem_cons_self ..)).bind
    intro b hb
    apply (ih fun x hx => h x (List.mem_cons_of_mem _ hx)).bind
    intro bs hbs
    exact returns_pure (List.forall_mem_cons.mpr ⟨hb, hbs⟩)

theorem Returns.exec {p : Program C R ε α} (h : p.Returns q) {s s' : σ} {a : α}
    (hrun : p.exec run s = (.ok a, s')) : q a := by
  induction p generalizing s with
  | done b =>
    have hab : b = a := Except.ok.inj (Prod.mk.inj hrun).1
    exact hab ▸ h
  | fault e => cases (Prod.mk.inj hrun).1
  | call c k ih => exact ih (run c s).1 (h _) hrun

end Returns

end Program
