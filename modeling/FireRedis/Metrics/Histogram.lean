import FireRedis.Http.Page
import FireRedis.Metrics.Counts

/-!
# The exported latency histogram

The recorder counts a latency in one bucket, the first that holds it, and the
page exports these counts as they are. A Prometheus bucket counts every latency
up to its threshold: the page shows that only while no latency is at most 10 ms.
-/

namespace FireRedis
open Str Decimal Exposition Http

/-- The text is a histogram of the observed latencies. -/
structure IsHistogram (text : Bytes) (observed : List UInt64) : Prop where
  bucket : ∀ t ∈ latencyBucketsUs.toList,
    number text (bucket (displayU64 t)) = some (observed.countP (· ≤ t))
  monotone : ∀ t ∈ latencyBucketsUs.toList, ∀ u ∈ latencyBucketsUs.toList, t ≤ u →
    ∃ a b, number text (Http.bucket (displayU64 t)) = some a ∧
      number text (Http.bucket (displayU64 u)) = some b ∧ a ≤ b
  bounded : ∀ t ∈ latencyBucketsUs.toList,
    ∃ a b, number text (Http.bucket (displayU64 t)) = some a ∧
      number text (Http.bucket (utf8 "+Inf")) = some b ∧ a ≤ b
  inf : number text (Http.bucket (utf8 "+Inf")) = number text latencyCount
  count : number text latencyCount = some observed.length

def bucketSeriesList : List Series := latencyBucketsUs.toList.map fun t => bucket (displayU64 t)

/-- The series a histogram is read from. -/
def latencySeries : List Series := bucketSeriesList ++ [bucket (utf8 "+Inf"), latencyCount]

theorem bucket_mem (i : Fin 8) : bucket (displayU64 (latencyBucketsUs.get i)) ∈ latencySeries := by
  refine List.mem_append_left _ (List.mem_map_of_mem ?_)
  revert i
  decide

/-! ### The histogram's own samples -/

section Own

variable (m : Metrics) (ord : CountOrder) (uptimeSeconds : UInt64)

theorem series_histogramSamples :
    (histogramSamples (m.snapshot ord uptimeSeconds)).map Sample.series =
      (latencySeries ++ [latencySum]).map some := by
  have hfst : (m.snapshot ord uptimeSeconds).latencyBuckets.map Prod.fst =
      latencyBucketsUs.toList := by
    refine List.map_fst_zip ?_
    rw [Vector.length_toList, Vector.length_toList]
  rw [latencySeries, bucketSeriesList, ← hfst, histogramSamples, List.append_assoc,
    List.map_append, List.map_append, List.map_map, List.map_map, List.map_map]
  rfl

/-- Each series of the histogram has one sample of its own. -/
theorem own_value {series : Series} {value : Bytes}
    (h : sampleOn series value ∈ histogramSamples (m.snapshot ord uptimeSeconds)) :
    valuesOf Sample.series (histogramSamples (m.snapshot ord uptimeSeconds)) (some series) =
      [value] := by
  have hnodup : (latencySeries ++ [latencySum]).Nodup := by decide +kernel
  refine valuesOf_nodup (s := sampleOn series value) ?_ h
  rw [series_histogramSamples]
  exact hnodup.map (Option.some_injective _)

theorem own_bucket (i : Fin 8) :
    valuesOf Sample.series (histogramSamples (m.snapshot ord uptimeSeconds))
      (some (bucket (displayU64 (latencyBucketsUs.get i)))) =
      [displayU64 (m.latencyBuckets.get i)] := by
  have hmem : (latencyBucketsUs.get i, m.latencyBuckets.get i) ∈
      (m.snapshot ord uptimeSeconds).latencyBuckets := by
    refine List.mem_iff_getElem.mpr ⟨i, ?_, ?_⟩
    · simp [Metrics.snapshot]
    · simp only [Metrics.snapshot, List.getElem_zip, Vector.getElem_toList]
      rfl
  exact own_value m ord uptimeSeconds
    (List.mem_append_left _ (List.mem_map.mpr ⟨_, hmem, rfl⟩))

theorem own_total {series : Series} (hseries : series ∈ [bucket (utf8 "+Inf"), latencyCount]) :
    valuesOf Sample.series (histogramSamples (m.snapshot ord uptimeSeconds)) (some series) =
      [displayU64 m.latencyCount] := by
  refine own_value m ord uptimeSeconds (List.mem_append_right _ ?_)
  simp only [List.mem_cons, List.not_mem_nil, or_false] at hseries
  rcases hseries with rfl | rfl
  · exact List.mem_cons_self ..
  · exact List.mem_cons_of_mem _ (List.mem_cons_self ..)

end Own

/-! ### Reading a series of the histogram -/

section Read

variable (m : Metrics) (ord : CountOrder) (uptimeSeconds : UInt64) {series : Series}

/-- The own sample of a command name is not one of the histogram. -/
theorem family_silent (hlatency : series ∈ latencySeries) (cmd : Str) (count : UInt64) :
    valuesOf Sample.series (samples (commandFamily cmd count)) (some series) = [] ↔
      ∀ s ∈ furtherSamples cmd count, s.series ≠ some series := by
  have hcmd : ∀ series ∈ latencySeries, ¬ commandSeries <+: series.1 := by decide
  have hown : ∀ s, ownSample cmd count = some s → s.series ≠ some series := by
    intro s hs hseries
    obtain ⟨labels, -, rfl⟩ := Option.map_eq_some_iff.mp hseries
    have hmetric := ownSample_metric cmd count
    rw [hs] at hmetric
    exact hcmd _ hlatency (commandSeries_metricName hmetric.symm)
  rw [valuesOf_eq_nil, List.mem_map]
  constructor
  · exact fun h s hs hseries => h ⟨s, (mem_commandFamily cmd count).mpr (Or.inl hs), hseries⟩
  · rintro h ⟨s, hs, hseries⟩
    rcases (mem_commandFamily cmd count).mp hs with hs | hs
    · exact h s hs hseries
    · exact hown s hs hseries

theorem number_eq_some (hlatency : series ∈ latencySeries) {own : UInt64} {k : ℕ}
    (hown : valuesOf Sample.series (histogramSamples (m.snapshot ord uptimeSeconds)) (some series) =
      [displayU64 own]) :
    number (metricsText (m.snapshot ord uptimeSeconds)) series = some k ↔
      (∀ c ∈ (m.snapshot ord uptimeSeconds).commandCounts,
        ∀ s ∈ furtherSamples c.1 c.2, s.series ≠ some series) ∧ own.toNat = k := by
  have hcounters : some series ∉ ((counters (m.snapshot ord uptimeSeconds)).map fun c =>
      (⟨utf8 c.1, some [], c.2.2.2⟩ : Sample)).map Sample.series := by
    have htexts : ∀ series ∈ latencySeries, ∀ c ∈ counterTexts, utf8 c.1 ≠ series.1 := by decide
    intro h
    rw [List.map_map] at h
    obtain ⟨c, hc, hseries⟩ := List.mem_map.mp h
    exact htexts _ hlatency _ (mem_counterTexts hc) (congrArg Prod.fst (Option.some.inj hseries))
  have hcommands : (∀ c ∈ (m.snapshot ord uptimeSeconds).commandCounts,
      ∀ s ∈ furtherSamples c.1 c.2, s.series ≠ some series) ↔
      ((m.snapshot ord uptimeSeconds).commandCounts.flatMap fun c =>
        valuesOf Sample.series (samples (commandFamily c.1 c.2)) (some series)) = [] := by
    rw [List.flatMap_eq_nil_iff]
    exact forall₂_congr fun c _ => (family_silent hlatency c.1 c.2).symm
  rw [hcommands, number, samples_metricsText, valuesOf_append, valuesOf_append,
    valuesOf_eq_nil.mpr hcounters, valuesOf_flatMap, hown, List.nil_append]
  cases (m.snapshot ord uptimeSeconds).commandCounts.flatMap fun c =>
      valuesOf Sample.series (samples (commandFamily c.1 c.2)) (some series) with
  | nil =>
    show parseNat (decimal own.toNat) = some k ↔ _
    rw [parseNat_decimal, Option.some_inj]
    exact (and_iff_right rfl).symm
  | cons v vs =>
    cases vs with
    | nil => simp
    | cons w ws => simp

end Read

/-! ### Buckets -/

theorem bucketOf_eq_some {us : UInt64} {i : Fin 8} :
    Metrics.bucketOf us = some i ↔
      us ≤ latencyBucketsUs.get i ∧ ∀ j < i, latencyBucketsUs.get j < us := by
  rw [Metrics.bucketOf, Fin.find?_eq_some_iff]
  simp only [decide_eq_true_eq, decide_eq_false_iff_not, UInt64.not_le]

theorem bucketOf_last {us : UInt64} (h : Metrics.bucketOf us = some 7) :
    10000 < us ∧ us ≤ 50000 :=
  ⟨(bucketOf_eq_some.mp h).2 6 (by decide), (bucketOf_eq_some.mp h).1⟩

/-- Above 10 ms only the last bucket is left, and it counts what is at most 50 ms. -/
theorem bucketOf_of_slow {us : UInt64} (h : 10000 < us) (i : Fin 8) :
    Metrics.bucketOf us = some i ↔ us ≤ latencyBucketsUs.get i := by
  have hlow : ∀ j : Fin 8, j < 7 → latencyBucketsUs.get j ≤ 10000 := by decide
  rw [bucketOf_eq_some]
  constructor
  · exact fun hi => hi.1
  · intro hi
    refine ⟨hi, fun j hj => ?_⟩
    have hj7 : j < 7 := lt_of_lt_of_le hj (Fin.le_last i)
    exact UInt64.lt_of_le_of_lt (hlow j hj7) h

theorem countP_add_le {α : Type} {p q r : α → Bool} (hp : ∀ a, p a → r a) (hq : ∀ a, q a → r a)
    (hpq : ∀ a, p a → ¬ q a) (l : List α) : l.countP p + l.countP q ≤ l.countP r := by
  induction l with
  | nil => rfl
  | cons a l ih =>
    have hone : (if p a then 1 else 0) + (if q a then 1 else 0) ≤ if r a then 1 else 0 := by
      have h := And.intro (hp a) (And.intro (hq a) (hpq a))
      revert h
      cases p a <;> cases q a <;> cases r a <;> decide
    rw [List.countP_cons, List.countP_cons, List.countP_cons]
    omega

/-- A bucket that shows every latency up to its threshold counted all of them. -/
theorem slow_of_last {ls : List UInt64}
    (h : (UInt64.ofNat (ls.countP (Metrics.bucketOf · = some 7))).toNat =
      ls.countP (· ≤ 50000)) : ∀ us ∈ ls, 10000 < us := by
  have hsum : ls.countP (Metrics.bucketOf · = some 7) + ls.countP (· ≤ 10000) ≤
      ls.countP (· ≤ 50000) := by
    refine countP_add_le ?_ ?_ ?_ ls
    · intro us hus
      exact decide_eq_true (bucketOf_last (of_decide_eq_true hus)).2
    · intro us hus
      exact decide_eq_true (UInt64.le_trans (of_decide_eq_true hus) (by decide))
    · intro us hus hfast
      exact absurd (bucketOf_last (of_decide_eq_true hus)).1
        (UInt64.not_lt.mpr (of_decide_eq_true hfast))
  have hwrap : (UInt64.ofNat (ls.countP (Metrics.bucketOf · = some 7))).toNat ≤
      ls.countP (Metrics.bucketOf · = some 7) := by
    rw [UInt64.toNat_ofNat']
    exact Nat.mod_le _ _
  have hnone : ls.countP (· ≤ 10000) = 0 := by omega
  intro us hus
  have hnot := List.countP_eq_zero.mp hnone us hus
  exact UInt64.not_le.mp fun hle => hnot (decide_eq_true hle)

/-! ### The page -/

section Page

variable (ord : CountOrder) (uptimeSeconds : UInt64) (rs : List Recording)

/-- The further samples that a received name writes into the page. -/
def forged (rs : List Recording) (n : Str) : List Sample :=
  furtherSamples n (UInt64.ofNat ((receivedNames rs).count n))

/-- No received name has a further line that is a sample of the histogram. -/
def Unforged (rs : List Recording) : Prop :=
  ∀ n ∈ receivedNames rs, ∀ s ∈ forged rs n, ∀ series ∈ latencySeries, s.series ≠ some series

theorem forall_counted {P : Str × UInt64 → Prop} :
    (∀ c ∈ ((Metrics.run rs).snapshot ord uptimeSeconds).commandCounts, P c) ↔
      ∀ n ∈ receivedNames rs, P (n, UInt64.ofNat ((receivedNames rs).count n)) := by
  rw [Metrics.run_snapshot_commandCounts, List.forall_mem_map]
  exact forall_congr' fun _ => imp_congr_left (Metrics.mem_countedNames ord uptimeSeconds rs)

theorem number_bucket (i : Fin 8) (k : ℕ) :
    number (responseBody (handleMetrics (Metrics.run rs) ord uptimeSeconds))
        (bucket (displayU64 (latencyBucketsUs.get i))) = some k ↔
      (∀ n ∈ receivedNames rs, ∀ s ∈ forged rs n,
        s.series ≠ some (bucket (displayU64 (latencyBucketsUs.get i)))) ∧
        (UInt64.ofNat ((latencies rs).countP (Metrics.bucketOf · = some i))).toNat = k := by
  rw [responseBody_handleMetrics, number_eq_some _ _ _ (bucket_mem i) (own_bucket ..),
    forall_counted, Metrics.run_latencyBuckets]
  rfl

theorem number_total {series : Series} (hseries : series ∈ [bucket (utf8 "+Inf"), latencyCount])
    (k : ℕ) :
    number (responseBody (handleMetrics (Metrics.run rs) ord uptimeSeconds)) series = some k ↔
      (∀ n ∈ receivedNames rs, ∀ s ∈ forged rs n, s.series ≠ some series) ∧
        (UInt64.ofNat (latencies rs).length).toNat = k := by
  rw [responseBody_handleMetrics, number_eq_some _ _ _ (List.mem_append_right _ hseries)
    (own_total _ _ _ hseries), forall_counted, Metrics.run_latencyCount]
  rfl

/-- The page shows a histogram exactly when every latency was above 10 ms, they
were not too many for the counter, and no client forged a sample of it. -/
theorem histogram_exported :
    IsHistogram (responseBody (handleMetrics (Metrics.run rs) ord uptimeSeconds)) (latencies rs) ↔
      (∀ us ∈ latencies rs, 10000 < us) ∧ (latencies rs).length < 2 ^ 64 ∧ Unforged rs := by
  constructor
  · intro h
    have hlisted : ∀ i : Fin 8, latencyBucketsUs.get i ∈ latencyBucketsUs.toList := by decide
    have hbucket : ∀ i : Fin 8, _ := fun i =>
      (number_bucket ord uptimeSeconds rs i _).mp (h.bucket _ (hlisted i))
    have hcount := (number_total ord uptimeSeconds rs (by simp) _).mp h.count
    have hinf := (number_total ord uptimeSeconds rs (by simp) _).mp (h.inf.trans h.count)
    refine ⟨slow_of_last (hbucket 7).2, ?_, ?_⟩
    · have hlen := hcount.2
      rw [UInt64.toNat_ofNat'] at hlen
      rw [← hlen]
      exact Nat.mod_lt _ (by norm_num)
    · intro n hn s hs series hmem
      rcases List.mem_append.mp hmem with hmem | hmem
      · obtain ⟨t, ht, rfl⟩ := List.mem_map.mp hmem
        obtain ⟨i, hi, rfl⟩ := List.mem_iff_getElem.mp ht
        exact (hbucket ⟨i, by simpa using hi⟩).1 n hn s hs
      · simp only [List.mem_cons, List.not_mem_nil, or_false] at hmem
        rcases hmem with rfl | rfl
        · exact hinf.1 n hn s hs
        · exact hcount.1 n hn s hs
  · rintro ⟨hslow, hlen, hforged⟩
    have hwrap : ∀ k ≤ (latencies rs).length, (UInt64.ofNat k).toNat = k := fun k hk => by
      rw [UInt64.toNat_ofNat']
      exact Nat.mod_eq_of_lt (lt_of_le_of_lt hk hlen)
    have hbucket : ∀ t ∈ latencyBucketsUs.toList,
        number (responseBody (handleMetrics (Metrics.run rs) ord uptimeSeconds))
          (bucket (displayU64 t)) = some ((latencies rs).countP (· ≤ t)) := by
      intro t ht
      obtain ⟨i, hi, rfl⟩ := List.mem_iff_getElem.mp ht
      have hcongr : (latencies rs).countP (Metrics.bucketOf · = some ⟨i, by simpa using hi⟩) =
          (latencies rs).countP (· ≤ latencyBucketsUs.toList[i]) := by
        refine List.countP_congr fun us hus => ?_
        rw [decide_eq_true_eq, decide_eq_true_eq]
        exact bucketOf_of_slow (hslow us hus) ⟨i, by simpa using hi⟩
      refine (number_bucket ord uptimeSeconds rs ⟨i, by simpa using hi⟩ _).mpr
        ⟨fun n hn s hs => hforged n hn s hs _ (bucket_mem _), ?_⟩
      rw [← hcongr]
      exact hwrap _ List.countP_le_length
    have htotal : ∀ series ∈ [bucket (utf8 "+Inf"), latencyCount],
        number (responseBody (handleMetrics (Metrics.run rs) ord uptimeSeconds)) series =
          some (latencies rs).length := fun series hseries =>
      (number_total ord uptimeSeconds rs hseries _).mpr
        ⟨fun n hn s hs => hforged n hn s hs _ (List.mem_append_right _ hseries),
          hwrap _ le_rfl⟩
    have hinf := htotal (bucket (utf8 "+Inf")) (by simp)
    have hcount := htotal latencyCount (by simp)
    refine ⟨hbucket, ?_, ?_, hinf.trans hcount.symm, hcount⟩
    · intro t ht u hu htu
      refine ⟨_, _, hbucket t ht, hbucket u hu, List.countP_mono_left fun us _ hus => ?_⟩
      exact decide_eq_true (UInt64.le_trans (of_decide_eq_true hus) htu)
    · intro t ht
      exact ⟨_, _, hbucket t ht, hinf, List.countP_le_length⟩

end Page

/-- One latency of 5 µs is missing from the bucket of all up to 50 ms. -/
theorem histogram_disjoint :
    ¬ IsHistogram (responseBody (handleMetrics (Metrics.run [.latency 5]) .sorted 0)) [5] := by
  intro h
  have hlast := (number_bucket .sorted 0 [.latency 5] 7 _).mp (h.bucket 50000 (by decide))
  exact absurd (slow_of_last hlast.2 5 (by decide)) (by decide)

end FireRedis
