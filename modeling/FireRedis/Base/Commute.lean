import FireRedis.Base.Pool

/-!
# Programs that do not meet

Two calls commute when neither notices whether the other came first. Where every
call of one program commutes with every call of another, the programs run in
either order with the same results, up to the same state.
-/

namespace Program

variable {C : Type} {R : C → Type} {ε α β σ : Type}

/-- The answers and the state do not depend on the order of the two calls. -/
structure Commute (run run' : (c : C) → σ → R c × σ) (c c' : C) : Prop where
  first : ∀ s, (run c (run' c' s).2).1 = (run c s).1
  second : ∀ s, (run' c' (run c s).2).1 = (run' c' s).1
  state : ∀ s, (run c (run' c' s).2).2 = (run' c' (run c s).2).2

variable {run run' : (c : C) → σ → R c × σ} {A A' : C → Prop}

theorem exec_call_comm {m : Program C R ε α} {c' : C} (hm : m.Calls fun c => Commute run run' c c')
    (s : σ) : (m.exec run (run' c' s).2).1 = (m.exec run s).1 ∧
      (run' c' (m.exec run s).2).1 = (run' c' s).1 ∧
      (m.exec run (run' c' s).2).2 = (run' c' (m.exec run s).2).2 := by
  induction m generalizing s with
  | done a => exact ⟨rfl, rfl, rfl⟩
  | fault e => exact ⟨rfl, rfl, rfl⟩
  | call c k ih =>
    obtain ⟨hc, hk⟩ := hm
    obtain ⟨hresult, hanswer, hstate⟩ := ih (run c s).1 (hk _) (run c s).2
    simp only [exec]
    rw [hc.first s, hc.state s]
    exact ⟨hresult, hanswer.trans (hc.second s), hstate⟩

theorem exec_comm {m : Program C R ε α} {m' : Program C R ε β} (hm : m.Calls A)
    (hm' : m'.Calls A') (hcomm : ∀ c c', A c → A' c' → Commute run run' c c') (s : σ) :
    (m.exec run (m'.exec run' s).2).1 = (m.exec run s).1 ∧
      (m'.exec run' (m.exec run s).2).1 = (m'.exec run' s).1 ∧
      (m.exec run (m'.exec run' s).2).2 = (m'.exec run' (m.exec run s).2).2 := by
  induction m' generalizing s with
  | done b => exact ⟨rfl, rfl, rfl⟩
  | fault e => exact ⟨rfl, rfl, rfl⟩
  | call c' k' ih =>
    obtain ⟨hc', hk'⟩ := hm'
    obtain ⟨hfirst, hanswer, hcall⟩ := exec_call_comm (hm.imp fun c hc => hcomm c c' hc hc') s
    obtain ⟨hresult, hresult', hstate⟩ := ih (run' c' s).1 (hk' _) (run' c' s).2
    simp only [exec]
    rw [hanswer, ← hcall]
    exact ⟨hresult.trans hfirst, hresult', hstate⟩

end Program
