import FireRedis.Store.Equivalence

/-!
# Filling a store key by key

A loop gives each of several different keys, none of them in the store before,
one value and one deadline. If these are the entries of another store up to
equal scores and related deadlines, the datasets are related.
-/

namespace FireRedis
open Std

variable {α : Type} (now : Reading) (key : α → Str) (m : α → StoreM Unit)
  (R : α → StoredValue → Option Instant → Prop)

/-- The turn for `a` gives its key, which is new, an entry that `R` allows. -/
def Fills (a : α) : Prop :=
  ∀ s : Store, (s.Inv fun _ => True) → s.data[key a]? = none →
    ∃ v d, R a v d ∧ (m a).runAt now s = (.ok (), s.put (key a) (some v) d)

theorem fill_run (items : List α) (hnodup : (items.map key).Nodup)
    (hfills : ∀ a ∈ items, Fills now key m R a) {s : Store} (hs : s.Inv fun _ => True)
    (hnew : ∀ a ∈ items, s.data[key a]? = none) :
    ∃ s', (forM items m).runAt now s = (.ok (), s') ∧ (s'.Inv fun _ => True) ∧
      (∀ a ∈ items, ∃ v d, R a v d ∧ s'.data[key a]? = some v ∧
        s'.expirations[key a]? = d) ∧
      ∀ j, j ∉ items.map key →
        s'.data[j]? = s.data[j]? ∧ s'.expirations[j]? = s.expirations[j]? := by
  induction items generalizing s with
  | nil => exact ⟨s, rfl, hs, nofun, fun j _ => ⟨rfl, rfl⟩⟩
  | cons a items ih =>
    obtain ⟨hhead, htail⟩ := List.nodup_cons.mp hnodup
    obtain ⟨v, d, hR, hrun⟩ :=
      hfills a (List.mem_cons_self ..) s hs (hnew a (List.mem_cons_self ..))
    have hs₁ : (s.put (key a) (some v) d).Inv fun _ => True :=
      Store.inv_put hs (key a) (fun _ _ => trivial) nofun
    have hnew₁ : ∀ b ∈ items, (s.put (key a) (some v) d).data[key b]? = none := by
      intro b hb
      have hne : key a ≠ key b := fun h => hhead (List.mem_map.mpr ⟨b, hb, h.symm⟩)
      rw [Store.put_data, if_neg hne]
      exact hnew b (List.mem_cons_of_mem _ hb)
    obtain ⟨s', hrest, hs', hmem, hframe⟩ := ih htail
      (fun b hb => hfills b (List.mem_cons_of_mem _ hb)) hs₁ hnew₁
    refine ⟨s', ?_, hs', ?_, ?_⟩
    · rw [List.forM_cons, runAt_bind_ok now hrun, hrest]
    · intro b hb
      rcases List.mem_cons.mp hb with rfl | hb
      · obtain ⟨hdata, hexp⟩ := hframe (key b) hhead
        refine ⟨v, d, hR, ?_, ?_⟩
        · rw [hdata, Store.put_data, if_pos rfl]
        · rw [hexp, Store.put_expirations, if_pos rfl]
      · exact hmem b hb
    · intro j hj
      have hne : key a ≠ j := fun h => hj (h ▸ List.mem_cons_self ..)
      obtain ⟨hdata, hexp⟩ := hframe j fun h => hj (List.mem_cons_of_mem _ h)
      rw [hdata, hexp, Store.put_data, Store.put_expirations, if_neg hne, if_neg hne]
      exact ⟨rfl, rfl⟩

/-! ### Filling an empty store with the entries of another -/

/-- The entries of a store at an instant, as a listing of its maps after an eviction. -/
theorem mem_evicted {s : Store} {t : Instant} {listing : List (Str × StoredValue)}
    (hperm : listing.Perm (s.evicted t).data.toList) (key : Str) (v : StoredValue) :
    (key, v) ∈ listing ↔ ∃ e, s.live t key = some e ∧ e.value = v := by
  rw [hperm.mem_iff, ExtTreeMap.mem_toList_iff_getElem?_eq_some, Store.evicted_data,
    Option.map_eq_some_iff]

/-- What a listing of a store must be turned into for the datasets to be related. -/
def Carries (S : Instant → Instant → Prop) (s : Store) (t : Instant) (item : Str × StoredValue)
    (v : StoredValue) (d : Option Instant) : Prop :=
  item.2.Same v ∧ Option.Rel S ((s.live t item.1).bind Entry.deadline) d

theorem fill_related {s : Store} (S : Instant → Instant → Prop)
    (hS : ∀ d d', now.instant < d → S d d' → now.instant < d')
    (listing : List (Str × StoredValue))
    (hperm : listing.Perm (s.evicted now.instant).data.toList)
    (m : Str × StoredValue → StoreM Unit)
    (hfills : ∀ item ∈ listing, Fills now Prod.fst m (Carries S s now.instant) item) :
    ∃ s', (forM listing m).runAt now Store.empty = (.ok (), s') ∧
      Dataset.Related S (s.live now.instant) (s'.live now.instant) := by
  obtain ⟨s', hrun, -, hmem, hframe⟩ := fill_run now Prod.fst m (Carries S s now.instant) listing
    (ExtTreeMap.nodup_fst_toList _ _ hperm) hfills (Store.inv_empty _) (by simp [Store.empty])
  refine ⟨s', hrun, fun key => ?_⟩
  cases he : s.live now.instant key with
  | none =>
    have hnot : key ∉ listing.map Prod.fst := by
      intro hkey
      obtain ⟨⟨k, v⟩, hv, rfl⟩ := List.mem_map.mp hkey
      obtain ⟨e, he', -⟩ := (mem_evicted hperm k v).mp hv
      rw [he] at he'
      cases he'
    have hnone : s'.live now.instant key = none := by
      rw [Store.live, (hframe key hnot).1]
      simp [Store.empty, liveOf]
    rw [hnone]
    exact Option.Rel.none
  | some e =>
    obtain ⟨v, d, ⟨hsame, hrel⟩, hdata, hexp⟩ :=
      hmem (key, e.value) ((mem_evicted hperm key e.value).mpr ⟨e, he, rfl⟩)
    rw [he, Option.bind_some] at hrel
    have hlater : ∀ x, d = some x → now.instant < x := by
      intro x hx
      rw [hx] at hrel
      cases hd : e.deadline with
      | none =>
        rw [hd] at hrel
        cases hrel
      | some y =>
        rw [hd] at hrel
        cases hrel with
        | some hyx => exact hS y x ((liveOf_eq_some.mp he).2.2 y hd) hyx
    have hlive : s'.live now.instant key = some ⟨v, d⟩ :=
      liveOf_eq_some.mpr ⟨hdata, hexp, hlater⟩
    rw [hlive]
    exact Option.Rel.some ⟨hsame, hrel⟩

end FireRedis
