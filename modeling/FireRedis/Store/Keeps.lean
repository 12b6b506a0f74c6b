import FireRedis.Store.Whole

/-!
# Programs that keep the store invariant

`Keeps P m` says that `m`, run alone at any clock reading, keeps the invariant
of a store of values in `P` and sets no deadline but from that reading.
-/

namespace FireRedis
open Std

def Keeps (P : StoredValue → Prop) {α : Type} (m : StoreM α) : Prop :=
  ∀ (now : Reading) (s : Store), s.Inv P →
    (m.runAt now s).2.Inv P ∧ NewDeadlines now.instant s (m.runAt now s).2

namespace Keeps

variable {P : StoredValue → Prop} {α β : Type}

theorem pure (a : α) : Keeps P (pure a : StoreM α) :=
  fun now s hs => ⟨hs, NewDeadlines.refl now.instant s⟩

theorem fault (e : Panic) : Keeps P (.fault e : StoreM α) :=
  fun now s hs => ⟨hs, NewDeadlines.refl now.instant s⟩

theorem bind {m : StoreM α} {f : α → StoreM β} (hm : Keeps P m) (hf : ∀ a, Keeps P (f a)) :
    Keeps P (m >>= f) := by
  intro now s hs
  obtain ⟨hinv, hnew⟩ := hm now s hs
  rw [runAt_bind]
  rcases hr : m.runAt now s with ⟨_ | a, s'⟩
  · rw [hr] at hinv hnew
    exact ⟨hinv, hnew⟩
  · rw [hr] at hinv hnew
    obtain ⟨hinv', hnew'⟩ := hf a now s' hinv
    exact ⟨hinv', hnew.trans hnew'⟩

theorem forM {f : α → StoreM Unit} (items : List α) (h : ∀ a ∈ items, Keeps P (f a)) :
    Keeps P (forM items f) := by
  induction items with
  | nil => exact pure ()
  | cons a items ih =>
    rw [List.forM_cons]
    exact bind (h a (List.mem_cons_self ..)) fun _ =>
      ih fun b hb => h b (List.mem_cons_of_mem _ hb)

theorem within {c : Caps} {m : StoreM α} (h : Within c m) : Keeps c.values m := by
  intro now s hs
  have heffect := Within.effect now h hs
  exact ⟨heffect.inv, heffect.times⟩

theorem forget {m : StoreM α} (keys : Reading → Store → List Str)
    (h : ∀ now s, (m.runAt now s).2 = s.forget (keys now s)) : Keeps P m := by
  intro now s hs
  rw [h now s]
  refine ⟨Store.inv_forget hs _, fun key d hd => ?_⟩
  rw [Store.forget_expirations] at hd
  split at hd
  · cases hd
  · exact Or.inl hd

theorem evictExpired : Keeps P Store.evictExpired := by
  apply forget fun now s => s.expiredKeys now.instant
  intro now s
  obtain ⟨m, hm⟩ := Store.evictExpired_run now s
  rw [hm]

end Keeps

end FireRedis
