import FireRedis.Persistence.Indexes

/-!
# DEL and EXISTS

EXISTS checks the deadline of each key, DEL counts what it finds in the data
map. The two agree on the keys that are live or gone from the map, and differ
on each key that has expired and is still there.
-/

namespace FireRedis
open Std Counted

namespace Store

/-- How many of the keys EXISTS counts. -/
def present (s : Store) (t : Instant) (ks : List Str) : ℕ :=
  ks.countP fun key => (s.live t key).isSome

/-- A value whose deadline has passed and that nobody has removed yet. -/
def Lingers (s : Store) (t : Instant) (key : Str) : Prop :=
  s.data[key]?.isSome ∧ s.live t key = none

theorem data_of_live {s : Store} {t : Instant} {key : Str} (h : (s.live t key).isSome) :
    s.data[key]?.isSome := by
  obtain ⟨e, he⟩ := Option.isSome_iff_exists.mp h
  rw [(liveOf_eq_some.mp he).1]
  rfl

section Counts

variable (s : Store) {ks : List Str}

theorem forgotten_card : s.forgotten ks =
    (ks.toFinset.filter fun key => s.data[key]?.isSome = true).card := by
  have hclose : ∀ (s : Store) (key j : Str), (s.put key none none).data[j]?.isSome =
      (decide (j ≠ key) && s.data[j]?.isSome) := by
    intro s key j
    rw [put_data]
    by_cases hj : key = j
    · simp [hj]
    · simp [hj, Ne.symm hj]
  have hcard : s.forgotten ks = _ :=
    counted_open id (fun (s : Store) key => s.data[key]?.isSome) (fun _ _ => rfl) hclose ks s
  rw [List.map_id] at hcard
  exact hcard

theorem present_card (t : Instant) (hnodup : ks.Nodup) : s.present t ks =
    (ks.toFinset.filter fun key => (s.live t key).isSome = true).card := by
  rw [present, List.countP_eq_length_filter, ← List.toFinset_card_of_nodup (hnodup.filter _),
    List.toFinset_filter]

theorem forgotten_eq_present (t : Instant) (hnodup : ks.Nodup) :
    s.forgotten ks = s.present t ks ↔ ∀ key ∈ ks, ¬ s.Lingers t key := by
  rw [present_card s t hnodup, forgotten_card]
  constructor
  · intro hcard key hkey hlingers
    have hsub : (ks.toFinset.filter fun key => (s.live t key).isSome = true) ⊆
        ks.toFinset.filter fun key => s.data[key]?.isSome = true :=
      Finset.monotone_filter_right _ fun _ _ => data_of_live
    have hstored : key ∈ ks.toFinset.filter fun key => s.data[key]?.isSome = true :=
      Finset.mem_filter.mpr ⟨List.mem_toFinset.mpr hkey, hlingers.1⟩
    rw [← Finset.eq_of_subset_of_card_le hsub hcard.le] at hstored
    have hlive := (Finset.mem_filter.mp hstored).2
    rw [hlingers.2] at hlive
    cases hlive
  · intro hnone
    congr 1
    apply Finset.filter_congr
    intro key hkey
    constructor
    · intro hdata
      by_contra hdead
      exact hnone key (List.mem_toFinset.mp hkey) ⟨hdata, by simpa using hdead⟩
    · exact data_of_live

theorem present_le_length (t : Instant) (ks : List Str) : s.present t ks ≤ ks.length :=
  List.countP_le_length

theorem forgotten_le_length (ks : List Str) : s.forgotten ks ≤ ks.length := by
  rw [forgotten_card]
  calc (ks.toFinset.filter fun key => s.data[key]?.isSome = true).card
      ≤ ks.toFinset.card := Finset.card_filter_le _ _
    _ ≤ ks.length := List.toFinset_card_le ks

end Counts

theorem present_forget (s : Store) (t : Instant) (ks : List Str) :
    (s.forget ks).present t ks = 0 := by
  rw [present, List.countP_eq_zero]
  intro key hkey
  rw [live_forget, if_pos hkey]
  simp

end Store

section Handlers

variable (now : Reading)

theorem existsLoop_run (s : Store) (ks : List Str) (n : ℕ) : ∃ s',
    (ks.foldlM (fun n key => return if ← Store.existsKey key then n + 1 else n) n :
      StoreM ℕ).runAt now s = (.ok (n + s.present now.instant ks), s') ∧
    s'.live now.instant = s.live now.instant := by
  induction ks generalizing s n with
  | nil => exact ⟨s, rfl, rfl⟩
  | cons key ks ih =>
    obtain ⟨s', hrun, hlive⟩ := ih (s.check now.instant key)
      (if (s.live now.instant key).isSome then n + 1 else n)
    refine ⟨s', ?_, hlive.trans (Store.live_check ..)⟩
    have hcount : (if (s.live now.instant key).isSome then n + 1 else n) +
        (s.check now.instant key).present now.instant ks =
          n + s.present now.instant (key :: ks) := by
      rw [Store.present, Store.live_check, Store.present, List.countP_cons]
      split <;> omega
    rw [List.foldlM_cons, bind_assoc, runAt_bind_ok now (Store.existsKey_spec s now key), ← hcount]
    exact hrun

theorem handleExists_count (s : Store) (ks : List Str) :
    ((handleExists ks).runAt now s).1 = .ok (count (s.present now.instant ks)) := by
  obtain ⟨s', hrun, -⟩ := existsLoop_run now s ks 0
  rw [handleExists, runAt_bind_ok now hrun, Nat.zero_add]
  rfl

theorem count_inj {m n : ℕ} (hm : m ≤ isizeMax) (hn : n ≤ isizeMax) (h : count m = count n) :
    m = n := by
  have hofNat : Int64.ofNat m = Int64.ofNat n := Value.integer.inj h
  have htoInt := congrArg Int64.toInt hofNat
  rw [Int64.toInt_ofNat_of_lt (by simp [isizeMax] at hm; omega),
    Int64.toInt_ofNat_of_lt (by simp [isizeMax] at hn; omega)] at htoInt
  exact_mod_cast htoInt

end Handlers

/-- DEL replies what EXISTS would have replied exactly when no listed key has
expired without having been removed. After it EXISTS replies 0 at any reading. -/
theorem del_counts (F : FloatText) (s : Store) (ord : IterOrder) (info : Bytes) (now : Reading)
    (ks : List Str) (hnodup : ks.Nodup) (hlen : ks.length ≤ isizeMax) :
    let del := ((Command.del ks).execute F ord info).runAt now s
    let exist := (Command.exists ks).execute F ord info
    (del.1 = (exist.runAt now s).1 ∧
      ∀ later, (exist.runAt later del.2).1 = .ok (.integer 0)) ↔
    ∀ key ∈ ks, ¬ s.Lingers now.instant key := by
  intro del exist
  have hdel : del = (.ok (count (s.forgotten ks)), s.forget ks) := handleDel_run now s ks
  have hexist : ∀ now s, (exist.runAt now s).1 = .ok (count (s.present now.instant ks)) :=
    fun now s => handleExists_count now s ks
  have hafter : ∀ later, (exist.runAt later (s.forget ks)).1 = .ok (.integer 0) := by
    intro later
    rw [hexist, Store.present_forget]
    rfl
  rw [hdel, hexist, ← Store.forgotten_eq_present s now.instant hnodup]
  constructor
  · rintro ⟨hreply, -⟩
    exact count_inj ((s.forgotten_le_length ks).trans hlen)
      ((s.present_le_length now.instant ks).trans hlen) (Except.ok.inj hreply)
  · intro heq
    exact ⟨by rw [heq], hafter⟩

/-- DEL k j before the deadline of k. -/
theorem del_counts_before :
    let del := ((Command.del [Str.lit "k", Str.lit "j"]).execute bitText .sorted []).runAt ⟨4, 0⟩
      volatileString
    let exist := (Command.exists [Str.lit "k", Str.lit "j"]).execute bitText .sorted []
    del.1 = (exist.runAt ⟨4, 0⟩ volatileString).1 ∧
      ∀ later, (exist.runAt later del.2).1 = .ok (.integer 0) := by
  refine (del_counts bitText volatileString .sorted [] ⟨4, 0⟩ [Str.lit "k", Str.lit "j"] (by decide)
    (by decide)).mpr ?_
  intro key hkey hlingers
  have hdead := hlingers.2
  rcases List.mem_pair.mp hkey with rfl | rfl
  · rw [volatileString_eq, Store.live_put_self] at hdead
    cases hdead
  · have hdata := hlingers.1
    rw [volatileString_eq, Store.put_data, if_neg (by decide)] at hdata
    simp [Store.empty] at hdata

/-- SET k v PX 5, and six milliseconds later DEL k: it replies 1 where EXISTS k
replies 0. -/
theorem del_counts_expired :
    Reachable bitText WholeMillis volatileString ∧
      (((Command.del [Str.lit "k"]).execute bitText .sorted []).runAt ⟨6000000, 0⟩
        volatileString).1 = .ok (.integer 1) ∧
      (((Command.exists [Str.lit "k"]).execute bitText .sorted []).runAt ⟨6000000, 0⟩
        volatileString).1 = .ok (.integer 0) :=
  ⟨reachable_volatileString, rfl, rfl⟩

end FireRedis
