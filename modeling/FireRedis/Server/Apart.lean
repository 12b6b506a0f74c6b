import FireRedis.Persistence.Logged

/-!
# Requests on different keys

A request changes no live entry but those of the keys it touches, and what it
does to these depends on nothing else. Requests that touch no common key can
therefore be executed in either order.
-/

namespace FireRedis

/-- FLUSHALL touches every key. -/
def Command.touches : Command → Str → Prop
  | .flushAll, _ => True
  | cmd, key => key ∈ cmd.keyList

/-- The keys of the command that the request is parsed to. -/
def touches (F : FloatText) (frame : Value) (key : Str) : Prop :=
  ∃ cmd, ParsesTo F frame cmd ∧ cmd.touches key

/-- No key is touched by both requests. -/
def Apart (F : FloatText) (f g : Value) : Prop := ∀ key, ¬ (touches F f key ∧ touches F g key)

section Execute

variable (F : FloatText) (ord : IterOrder) (info : Bytes) (now : Reading)

theorem touches_of_not_whole {cmd : Command} (h : cmd.isWhole = false) (key : Str) :
    cmd.touches key ↔ key ∈ cmd.keyList := by
  cases cmd with
  | flushAll => cases h
  | _ => rfl

theorem execute_frame (cmd : Command) {s : Store} (hs : s.Inv fun _ => True) {key : Str}
    (hkey : ¬ cmd.touches key) :
    ((cmd.execute F ord info).runAt now s).2.live now.instant key = s.live now.instant key := by
  cases hwhole : cmd.isWhole with
  | false =>
    have h := within_execute Closed.all F ord info cmd hwhole fun _ _ => trivial
    refine (Within.effect now h hs).frame key ?_
    rwa [touches_of_not_whole hwhole] at hkey
  | true =>
    cases cmd with
    | del ks =>
      have hm := handleDel_run now s ks
      rw [Command.execute, hm, Store.live_forget]
      exact if_neg hkey
    | keys pattern => rw [execute_quiet F ord info now (.keys pattern) rfl hs]
    | flushAll => exact absurd trivial hkey
    | _ => cases hwhole

theorem execute_agree (cmd : Command) {s₁ s₂ : Store} (h₁ : s₁.Inv fun _ => True)
    (h₂ : s₂.Inv fun _ => True)
    (h : ∀ key, cmd.touches key → s₁.live now.instant key = s₂.live now.instant key) {key : Str}
    (hkey : cmd.touches key) :
    ((cmd.execute F ord info).runAt now s₁).2.live now.instant key =
      ((cmd.execute F ord info).runAt now s₂).2.live now.instant key := by
  cases hwhole : cmd.isWhole with
  | false =>
    have hwithin := within_execute Closed.all F ord info cmd hwhole fun _ _ => trivial
    have htouches := touches_of_not_whole hwhole
    refine (Within.respects now hwithin h₁ h₂ fun k hk => h k ((htouches k).mpr hk)).2 key ?_
    exact (htouches key).mp hkey
  | true =>
    cases cmd with
    | del ks =>
      have hm₁ := handleDel_run now s₁ ks
      have hm₂ := handleDel_run now s₂ ks
      rw [Command.execute, hm₁, hm₂, Store.live_forget, Store.live_forget, h key hkey]
    | keys pattern => exact absurd hkey List.not_mem_nil
    | flushAll => rw [Command.execute, handleFlushall_run, handleFlushall_run]
    | _ => cases hwhole

end Execute

/-! ### Turns at one clock reading -/

section Turns

variable (F : FloatText) (t u : Turn)

/-- A turn executes the command of its request or does nothing. -/
theorem turn_cases : (∃ cmd, ParsesTo F t.frame cmd ∧
      ∀ s, (t.run F s).2 = ((cmd.execute F t.ord t.info).runAt t.now s).2) ∨
    ((∀ key, ¬ touches F t.frame key) ∧ ∀ s, (t.run F s).2 = s) := by
  rcases request_cases F t.frame with ⟨args, cmd, hargs, hcmd⟩ | ⟨reply, hrejected⟩
  · exact Or.inl ⟨cmd, ⟨args, hargs, hcmd⟩, fun s => by rw [run_parsed F ⟨args, hargs, hcmd⟩]⟩
  · refine Or.inr ⟨fun key ⟨cmd, ⟨args, hargs, hcmd⟩, _⟩ => ?_, fun s => ?_⟩
    · exact hrejected.unparsed hargs cmd hcmd
    · rw [Turn.run, hrejected.respond]
      rfl

theorem parsesTo_unique {frame : Value} {cmd cmd' : Command} (h : ParsesTo F frame cmd)
    (h' : ParsesTo F frame cmd') : cmd = cmd' := by
  obtain ⟨args, rfl, hparse⟩ := h
  obtain ⟨args', heq, hparse'⟩ := h'
  obtain rfl : args = args' := by simpa using heq
  exact Except.ok.inj (hparse.symm.trans hparse')

variable {s s' : Store} (hs : s.Inv fun _ => True) (hs' : s'.Inv fun _ => True)

include hs in
theorem run_frame {key : Str} (hkey : ¬ touches F t.frame key) :
    (t.run F s).2.live t.now.instant key = s.live t.now.instant key := by
  rcases turn_cases F t with ⟨cmd, hcmd, hrun⟩ | ⟨-, hrun⟩
  · rw [hrun]
    exact execute_frame F t.ord t.info t.now cmd hs fun h => hkey ⟨cmd, hcmd, h⟩
  · rw [hrun]

include hs hs' in
theorem run_agree (h : ∀ key, touches F t.frame key →
      s.live t.now.instant key = s'.live t.now.instant key) {key : Str}
    (hkey : touches F t.frame key) :
    (t.run F s).2.live t.now.instant key = (t.run F s').2.live t.now.instant key := by
  rcases turn_cases F t with ⟨cmd, hcmd, hrun⟩ | ⟨hnone, -⟩
  · rw [hrun, hrun]
    obtain ⟨cmd', hcmd', htouch⟩ := hkey
    rw [parsesTo_unique F hcmd' hcmd] at htouch
    exact execute_agree F t.ord t.info t.now cmd hs hs' (fun k hk => h k ⟨cmd, hcmd, hk⟩) htouch
  · exact absurd hkey (hnone key)

include hs hs' in
theorem run_live (h : s.live t.now.instant = s'.live t.now.instant) :
    (t.run F s).2.live t.now.instant = (t.run F s').2.live t.now.instant := by
  funext key
  by_cases hkey : touches F t.frame key
  · exact run_agree F t hs hs' (fun k _ => congrFun h k) hkey
  · rw [run_frame F t hs hkey, run_frame F t hs' hkey, h]

include hs in
theorem run_comm (hnow : t.now = u.now) (hapart : Apart F t.frame u.frame) :
    (u.run F (t.run F s).2).2.live u.now.instant =
      (t.run F (u.run F s).2).2.live u.now.instant := by
  have ht := inv_run F t hs
  have hu := inv_run F u hs
  funext key
  by_cases hkey : touches F u.frame key
  · have hnot : ¬ touches F t.frame key := fun h => hapart key ⟨h, hkey⟩
    have hsame : ∀ k, touches F u.frame k →
        (t.run F s).2.live u.now.instant k = s.live u.now.instant k := by
      intro k hk
      rw [← hnow]
      exact run_frame F t hs fun h => hapart k ⟨h, hk⟩
    have hframe := run_frame F t hu hnot
    rw [hnow] at hframe
    rw [run_agree F u ht hs hsame hkey, hframe]
  · have hsame : ∀ k, touches F t.frame k →
        (u.run F s).2.live t.now.instant k = s.live t.now.instant k := by
      intro k hk
      rw [hnow]
      exact run_frame F u hs fun h => hapart k ⟨hk, h⟩
    rw [run_frame F u ht hkey]
    by_cases hkey' : touches F t.frame key
    · have hagree := run_agree F t hu hs hsame hkey'
      rw [hnow] at hagree
      exact hagree.symm
    · have hframe := run_frame F t hs hkey'
      have hframe' := run_frame F t hu hkey'
      rw [hnow] at hframe hframe'
      rw [hframe, hframe', run_frame F u hs hkey]

end Turns

section Lists

variable (F : FloatText) {now : Reading}

theorem runTurns_live {turns : List Turn} (hnow : ∀ t ∈ turns, t.now = now) {s s' : Store}
    (hs : s.Inv fun _ => True) (hs' : s'.Inv fun _ => True)
    (h : s.live now.instant = s'.live now.instant) :
    (runTurns F turns s).live now.instant = (runTurns F turns s').live now.instant := by
  induction turns generalizing s s' with
  | nil => exact h
  | cons t turns ih =>
    obtain ⟨ht, htail⟩ := List.forall_mem_cons.mp hnow
    rw [runTurns_cons, runTurns_cons]
    refine ih htail (inv_run F t hs) (inv_run F t hs') ?_
    rw [← ht] at h ⊢
    exact run_live F t hs hs' h

/-- A turn may be taken first if it is apart from all turns before it. -/
theorem runTurns_front {before after : List Turn} {t : Turn} (hnow : ∀ u ∈ before, u.now = now)
    (ht : t.now = now) (hafter : ∀ u ∈ after, u.now = now)
    (hapart : ∀ u ∈ before, Apart F u.frame t.frame) {s : Store} (hs : s.Inv fun _ => True) :
    (runTurns F (before ++ t :: after) s).live now.instant =
      (runTurns F (before ++ after) (t.run F s).2).live now.instant := by
  induction before generalizing s with
  | nil => rfl
  | cons u before ih =>
    obtain ⟨hu, hnow⟩ := List.forall_mem_cons.mp hnow
    obtain ⟨hapartu, hapart⟩ := List.forall_mem_cons.mp hapart
    rw [List.cons_append, List.cons_append, runTurns_cons, runTurns_cons,
      ih hnow hapart (inv_run F u hs)]
    have hall : ∀ v ∈ before ++ after, v.now = now := by
      intro v hv
      rcases List.mem_append.mp hv with hv | hv
      · exact hnow v hv
      · exact hafter v hv
    refine runTurns_live F hall (inv_run F t (inv_run F u hs)) (inv_run F u (inv_run F t hs)) ?_
    rw [← ht]
    exact run_comm F u t hs (hu.trans ht.symm) hapartu

end Lists

end FireRedis
