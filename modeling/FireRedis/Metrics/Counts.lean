import FireRedis.Base.Maps
import FireRedis.Metrics

/-!
# What a run leaves in the counters

Every counter of a run is the number of the recordings it is about, modulo 2^64.
-/

namespace FireRedis
open Std

namespace Recording

def latency? : Recording → Option UInt64
  | .latency elapsedUs => some elapsedUs
  | _ => none

/-- The name that is counted: that of a request that is a non-empty array. -/
def name? : Recording → Option Str
  | .received (.array (some (arg :: args))) => some (commandName (arg :: args))
  | _ => none

end Recording

/-- The latencies recorded in a run. -/
def latencies (recordings : List Recording) : List UInt64 := recordings.filterMap (·.latency?)

/-- The command names received in a run. -/
def receivedNames (recordings : List Recording) : List Str := recordings.filterMap (·.name?)

namespace Metrics

/-! ### One recording -/

/-- The counters of latencies and of names are the same. -/
structure Unmoved (m m' : Metrics) : Prop where
  latencyCount : m'.latencyCount = m.latencyCount
  latencyBuckets : m'.latencyBuckets = m.latencyBuckets
  commandCounts : m'.commandCounts = m.commandCounts

theorem unmoved_trackKeyspaceMetrics (m : Metrics) (response : Value) :
    Unmoved m (m.trackKeyspaceMetrics response) := by
  unfold trackKeyspaceMetrics
  split
  · exact ⟨rfl, rfl, rfl⟩
  · exact ⟨rfl, rfl, rfl⟩
  · split
    · exact ⟨rfl, rfl, rfl⟩
    · exact ⟨rfl, rfl, rfl⟩
  · exact ⟨rfl, rfl, rfl⟩
  · exact ⟨rfl, rfl, rfl⟩

theorem unmoved_answered (m : Metrics) (response : Value) : Unmoved m (m.answered response) := by
  have h := unmoved_trackKeyspaceMetrics m response
  unfold answered
  cases response with
  | error e => exact ⟨h.1, h.2, h.3⟩
  | simpleString s => exact ⟨h.1, h.2, h.3⟩
  | integer i => exact ⟨h.1, h.2, h.3⟩
  | bulkString b => exact ⟨h.1, h.2, h.3⟩
  | array items => exact ⟨h.1, h.2, h.3⟩
  | null => exact ⟨h.1, h.2, h.3⟩

theorem unmoved_recordEvicted (m : Metrics) (count : UInt64) :
    Unmoved m (m.recordEvicted count) := by
  unfold recordEvicted
  split
  · exact ⟨rfl, rfl, rfl⟩
  · exact ⟨rfl, rfl, rfl⟩

/-- What a recording can be: a latency, a name, or neither. -/
theorem record_cases (m : Metrics) (r : Recording) :
    (∃ elapsedUs, r = .latency elapsedUs) ∨
    (∃ n, r.name? = some n ∧ r.latency? = none ∧ m.record r = m.recordCommandNamed n) ∨
    (r.name? = none ∧ r.latency? = none ∧ Unmoved m (m.record r)) := by
  cases r with
  | latency elapsedUs => exact .inl ⟨elapsedUs, rfl⟩
  | received frame =>
    rcases frame with _ | _ | _ | _ | (_ | (_ | ⟨arg, args⟩)) | _
    all_goals first
      | exact .inr (.inl ⟨_, rfl, rfl, rfl⟩)
      | exact .inr (.inr ⟨rfl, rfl, rfl, rfl, rfl⟩)
  | answered response => exact .inr (.inr ⟨rfl, rfl, unmoved_answered m response⟩)
  | evicted count => exact .inr (.inr ⟨rfl, rfl, unmoved_recordEvicted m count⟩)
  | connectionOpened => exact .inr (.inr ⟨rfl, rfl, rfl, rfl, rfl⟩)
  | connectionClosed => exact .inr (.inr ⟨rfl, rfl, rfl, rfl, rfl⟩)
  | rdbSave => exact .inr (.inr ⟨rfl, rfl, rfl, rfl, rfl⟩)
  | totalKeys count => exact .inr (.inr ⟨rfl, rfl, rfl, rfl, rfl⟩)

/-! ### A run -/

theorem foldl_latencyCount (m : Metrics) (rs : List Recording) :
    (rs.foldl record m).latencyCount = m.latencyCount + UInt64.ofNat (latencies rs).length := by
  induction rs generalizing m with
  | nil => exact (UInt64.add_zero _).symm
  | cons r rs ih =>
    rw [List.foldl_cons, ih, latencies, latencies, List.filterMap_cons]
    rcases record_cases m r with ⟨us, rfl⟩ | ⟨n, -, hus, hrec⟩ | ⟨-, hus, hsame⟩
    · show m.latencyCount + 1 + _ = m.latencyCount + UInt64.ofNat (_ + 1)
      rw [UInt64.add_assoc, UInt64.ofNat_add, UInt64.add_comm 1]
      rfl
    · rw [hus, hrec]
      rfl
    · rw [hus, hsame.latencyCount]

theorem run_latencyCount (rs : List Recording) :
    (run rs).latencyCount = UInt64.ofNat (latencies rs).length :=
  (foldl_latencyCount new rs).trans (UInt64.zero_add _)

theorem get_set {α : Type} {n : ℕ} (v : Vector α n) (i j : Fin n) (a : α) :
    (v.set i a).get j = if i = j then a else v.get j := by
  show (v.set i a)[j.val] = if i = j then a else v[j.val]
  rw [Vector.getElem_set]
  simp only [Fin.ext_iff]

theorem recordLatency_bucket (m : Metrics) (elapsedUs : UInt64) (i : Fin 8) :
    (m.recordLatency elapsedUs).latencyBuckets.get i =
      m.latencyBuckets.get i + if bucketOf elapsedUs = some i then 1 else 0 := by
  unfold recordLatency
  cases hb : bucketOf elapsedUs with
  | none => simp
  | some j =>
    dsimp only
    rw [get_set]
    by_cases hij : j = i
    · subst hij
      simp
    · simp [hij]

theorem foldl_latencyBuckets (m : Metrics) (rs : List Recording) (i : Fin 8) :
    (rs.foldl record m).latencyBuckets.get i =
      m.latencyBuckets.get i + UInt64.ofNat ((latencies rs).countP (bucketOf · = some i)) := by
  induction rs generalizing m with
  | nil => exact (UInt64.add_zero _).symm
  | cons r rs ih =>
    rw [List.foldl_cons, ih, latencies, latencies, List.filterMap_cons]
    rcases record_cases m r with ⟨us, rfl⟩ | ⟨n, -, hus, hrec⟩ | ⟨-, hus, hsame⟩
    · show (m.recordLatency us).latencyBuckets.get i + _ =
        m.latencyBuckets.get i + UInt64.ofNat ((us :: _).countP _)
      rw [recordLatency_bucket, List.countP_cons]
      by_cases hb : bucketOf us = some i
      · simp only [hb, if_true, decide_true]
        rw [UInt64.add_assoc, UInt64.ofNat_add, UInt64.add_comm 1]
        rfl
      · simp [hb]
    · rw [hus, hrec]
      rfl
    · rw [hus, hsame.latencyBuckets]

theorem run_latencyBuckets (rs : List Recording) (i : Fin 8) :
    (run rs).latencyBuckets.get i =
      UInt64.ofNat ((latencies rs).countP (bucketOf · = some i)) := by
  have hzero : new.latencyBuckets.get i = 0 := by simp [new]
  rw [run, foldl_latencyBuckets, hzero, UInt64.zero_add]

theorem foldl_commandCounts (m : Metrics) (rs : List Recording) (n : Str) :
    (rs.foldl record m).commandCounts[n]? =
      if n ∈ receivedNames rs then
        some (m.commandCounts[n]?.getD 0 + UInt64.ofNat ((receivedNames rs).count n))
      else m.commandCounts[n]? := by
  induction rs generalizing m with
  | nil => rfl
  | cons r rs ih =>
    rw [List.foldl_cons, ih, receivedNames, receivedNames, List.filterMap_cons]
    rcases record_cases m r with ⟨us, rfl⟩ | ⟨k, hk, -, hrec⟩ | ⟨hk, -, hsame⟩
    · rfl
    · have hget : (m.record r).commandCounts[n]? =
          if k = n then some (m.commandCounts[n]?.getD 0 + 1) else m.commandCounts[n]? := by
        rw [hrec]
        show (m.commandCounts.alter k _)[n]? = _
        rw [ExtTreeMap.getElem?_alter]
        simp only [LawfulEqCmp.compare_eq_iff_eq]
        by_cases hkn : k = n
        · subst hkn
          simp
        · simp [hkn]
      rw [hget, hk]
      by_cases hkn : k = n
      · subst hkn
        simp only [if_true, List.mem_cons, true_or, Option.getD_some, List.count_cons_self]
        split
        · rw [UInt64.add_assoc, UInt64.ofNat_add, UInt64.add_comm 1]
          rfl
        · rename_i hnot
          rw [List.count_eq_zero.mpr hnot]
          rfl
      · have hnk : n ≠ k := fun h => hkn h.symm
        simp [hkn, hnk]
    · rw [hk, hsame.commandCounts]

/-- A name is counted as often as it was received, and not at all if it never was. -/
theorem run_commandCounts (rs : List Recording) (n : Str) :
    (run rs).commandCounts[n]? =
      if n ∈ receivedNames rs then some (UInt64.ofNat ((receivedNames rs).count n)) else none := by
  have hempty : new.commandCounts[n]? = none := ExtTreeMap.getElem?_empty
  rw [run, foldl_commandCounts, hempty, Option.getD_none, UInt64.zero_add]

/-! ### The snapshot -/

section Snapshot

variable (m : Metrics) (ord : CountOrder) (uptimeSeconds : UInt64)

theorem snapshot_commandCounts_perm :
    (m.snapshot ord uptimeSeconds).commandCounts.Perm m.commandCounts.toList :=
  (List.mergeSort_perm _ _).trans (ord.counts_perm _)

theorem mem_snapshot_commandCounts {n : Str} {count : UInt64} :
    (n, count) ∈ (m.snapshot ord uptimeSeconds).commandCounts ↔
      m.commandCounts[n]? = some count := by
  rw [(snapshot_commandCounts_perm m ord uptimeSeconds).mem_iff,
    ExtTreeMap.mem_toList_iff_getElem?_eq_some]

end Snapshot

section Run

variable (ord : CountOrder) (uptimeSeconds : UInt64) (rs : List Recording)

/-- The names a run has counted, in the order of the page. -/
def countedNames : List Str :=
  ((run rs).snapshot ord uptimeSeconds).commandCounts.map Prod.fst

theorem nodup_countedNames : (countedNames ord uptimeSeconds rs).Nodup :=
  ExtTreeMap.nodup_fst_toList _ _ (snapshot_commandCounts_perm ..)

theorem mem_countedNames {n : Str} :
    n ∈ countedNames ord uptimeSeconds rs ↔ n ∈ receivedNames rs := by
  rw [countedNames, List.mem_map]
  constructor
  · rintro ⟨c, hc, rfl⟩
    by_contra hn
    have hcount := (mem_snapshot_commandCounts (run rs) ord uptimeSeconds).mp hc
    rw [run_commandCounts, if_neg hn] at hcount
    cases hcount
  · intro hn
    have hcount := (run_commandCounts rs n).trans (if_pos hn)
    exact ⟨(n, _), (mem_snapshot_commandCounts (run rs) ord uptimeSeconds).mpr hcount, rfl⟩

theorem run_snapshot_commandCounts :
    ((run rs).snapshot ord uptimeSeconds).commandCounts =
      (countedNames ord uptimeSeconds rs).map fun n =>
        (n, UInt64.ofNat ((receivedNames rs).count n)) := by
  rw [countedNames, List.map_map]
  refine (List.map_id'' (fun c => rfl) _).symm.trans (List.map_congr_left fun c hc => ?_)
  have hn : c.1 ∈ receivedNames rs :=
    (mem_countedNames ord uptimeSeconds rs).mp (List.mem_map_of_mem hc)
  have hcount := (mem_snapshot_commandCounts (run rs) ord uptimeSeconds).mp hc
  rw [run_commandCounts, if_pos hn, Option.some_inj] at hcount
  exact Prod.ext rfl hcount.symm

end Run

end Metrics

end FireRedis
