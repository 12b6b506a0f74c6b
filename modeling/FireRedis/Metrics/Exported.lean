import FireRedis.Http.Page
import FireRedis.Metrics.Counts

/-!
# The exported counters of commands

The server counts a request under the name it was sent with; the page exports
each name in lower case, with dots replaced. Names that become the same metric
are exported twice (a blank, a tab or a brace ends the metric), and a name with a
line feed writes lines of its own.
-/

namespace FireRedis
open Str Decimal Exposition Http

/-- The request names the command in some letter case. -/
def isRequest (command : String) : Recording → Bool
  | .received (.array (some (.bulkString (some b) :: _))) => toAsciiUppercase b = utf8 command
  | _ => false

/-- How often the command was received. -/
def receivedAs (command : String) (rs : List Recording) : ℕ := rs.countP (isRequest command)

/-- The metric of a supported command. -/
def exportedSeries (command : String) : Bytes :=
  commandSeries ++ toAsciiLowercase (utf8 command)

/-- Each command is exported once, with the number of times it was received. -/
structure ExportedOnce (F : FloatText) (text : Bytes) (rs : List Recording) : Prop where
  once : ∀ x, (values text (commandSeries ++ x)).length ≤ 1
  total : ∀ p ∈ parsers F, values text (exportedSeries p.1) =
    if receivedAs p.1 rs = 0 then [] else [decimal (receivedAs p.1 rs)]

/-- The received names stay apart on the page. -/
structure NamesApart (F : FloatText) (rs : List Recording) : Prop where
  distinct : ∀ n ∈ receivedNames rs, ∀ n' ∈ receivedNames rs, ∀ name,
    metricName n = some name → metricName n' = some name → n = n'
  single : ∀ n ∈ receivedNames rs, ∀ name ∈ injected n, ¬ commandSeries <+: name
  spelled : ∀ n ∈ receivedNames rs, ∀ p ∈ parsers F,
    metricName n = some (exportedSeries p.1) → toAsciiUppercase n.bytes = utf8 p.1
  bounded : ∀ p ∈ parsers F, receivedAs p.1 rs < 2 ^ 64

/-! ### Names -/

theorem forall_byte {P : UInt8 → Prop} (h : ∀ i : Fin 256, P (UInt8.ofNat i)) (b : UInt8) :
    P b := by
  have hb := h ⟨b.toNat, b.toNat_lt⟩
  rwa [UInt8.ofNat_toNat] at hb

theorem keeps_safeByte : Keeps safeByte where
  lineFeed := forall_byte (by decide +kernel)
  blank := forall_byte (by decide +kernel)
  brace := forall_byte (by decide +kernel)
  hash := forall_byte (by decide +kernel)

theorem safeByte_of_upper : ∀ b : UInt8, 0x41 ≤ toUpper b → toUpper b ≤ 0x5A →
    safeByte b = toLower (toUpper b) :=
  forall_byte (by decide +kernel)

theorem parsers_upper (F : FloatText) : ∀ p ∈ parsers F,
    utf8 p.1 ≠ [] ∧ ∀ b ∈ utf8 p.1, 0x41 ≤ b ∧ b ≤ 0x5A := by
  have hnames : ∀ name ∈ (parsers F).map Prod.fst,
      utf8 name ≠ [] ∧ (utf8 name).all fun b => 65 ≤ b.toNat && b.toNat ≤ 90 := by
    simp only [parsers, List.map_cons, List.map_nil]
    decide
  intro p hp
  obtain ⟨hne, hall⟩ := hnames p.1 (List.mem_map_of_mem hp)
  refine ⟨hne, fun b hb => ?_⟩
  have hrange := List.all_eq_true.mp hall b hb
  simp only [Bool.and_eq_true, decide_eq_true_eq] at hrange
  exact hrange

/-- A spelling of a supported command is exported as that command. -/
theorem safeName_of_upper {cmd name : Bytes} (hupper : ∀ b ∈ name, 0x41 ≤ b ∧ b ≤ 0x5A)
    (h : toAsciiUppercase cmd = name) : safeName cmd = toAsciiLowercase name := by
  rw [← h, toAsciiUppercase, toAsciiLowercase, List.map_map, safeName]
  refine List.map_congr_left fun b hb => ?_
  have hrange := hupper (toUpper b) (h ▸ List.mem_map_of_mem hb)
  exact safeByte_of_upper b hrange.1 hrange.2

theorem word_lower : ∀ b : UInt8, 0x41 ≤ b → b ≤ 0x5A →
    endsName (toLower b) = false ∧ toLower b ≠ 0x0A :=
  forall_byte (by decide +kernel)

theorem plain_exportedSeries {F : FloatText} {p : String × ArgParser} (hp : p ∈ parsers F) :
    Plain (exportedSeries p.1) := by
  have hlower : ∀ b ∈ toAsciiLowercase (utf8 p.1), endsName b = false ∧ b ≠ 0x0A := by
    intro b hb
    obtain ⟨c, hc, rfl⟩ := List.mem_map.mp hb
    have hrange := (parsers_upper F p hp).2 c hc
    exact word_lower c hrange.1 hrange.2
  exact plain_commandSeries.append (fun b hb => (hlower b hb).1) fun hb => (hlower _ hb).2 rfl

/-- A name that clients can inject as sent, they can inject as exported. -/
theorem not_prefix_laterNames {n : Str} (h : ∀ name ∈ injected n, ¬ commandSeries <+: name) :
    ∀ name ∈ laterNames n.bytes, ¬ commandSeries <+: name := by
  intro name hname hpre
  have hmapped : name.map safeByte ∈ injected n := by
    have hmem : name.map safeByte ∈ laterNames (safeName n.bytes) := by
      rw [safeName, keeps_safeByte.laterNames_map]
      exact List.mem_map_of_mem hname
    exact laterNames_append_space _ hmem
  have hseries : commandSeries.map safeByte = commandSeries := by decide
  have hstart := hpre.map safeByte
  rw [hseries] at hstart
  exact h _ hmapped hstart

theorem metricName_of_upper {F : FloatText} {p : String × ArgParser} (hp : p ∈ parsers F) {n : Str}
    (h : toAsciiUppercase n.bytes = utf8 p.1) : metricName n = some (exportedSeries p.1) := by
  have hplain := plain_exportedSeries hp
  have hline : 0x0A ∉ exportedSeries p.1 ++ [0x20] := by simp [hplain.2.2.1]
  rw [metricName, safeName_of_upper (parsers_upper F p hp).2 h, ← exportedSeries,
    firstLine_line hline]
  exact nameOf_line hplain rfl []

theorem samples_of_upper {F : FloatText} {p : String × ArgParser} (hp : p ∈ parsers F) {n : Str}
    (h : toAsciiUppercase n.bytes = utf8 p.1) (count : UInt64) :
    samples (commandFamily n count) = [⟨exportedSeries p.1, some [], displayU64 count⟩] := by
  have hplain := plain_exportedSeries hp
  have hsafe := safeName_of_upper (parsers_upper F p hp).2 h
  have hn : 0x0A ∉ n.bytes := by
    intro hmem
    have hmap : toUpper 0x0A ∈ utf8 p.1 := h ▸ List.mem_map_of_mem hmem
    exact absurd ((parsers_upper F p hp).2 _ hmap).1 (by decide)
  have hcount : 0x0A ∉ utf8 "Command count for " := by decide
  have hkind : 0x0A ∉ utf8 "counter" := by decide
  rw [commandFamily, hsafe]
  exact samples_family hplain (by simp [hcount, hn]) hkind (not_mem_displayU64 count)
    (word_displayU64 count)

/-! ### How often a command was received -/

/-- The counted names tell which requests name a command. -/
theorem receivedAs_eq {F : FloatText} {p : String × ArgParser} (hp : p ∈ parsers F)
    (rs : List Recording) :
    receivedAs p.1 rs =
      (receivedNames rs).countP fun n => toAsciiUppercase n.bytes = utf8 p.1 := by
  obtain ⟨hne, hupper⟩ := parsers_upper F p hp
  have hascii : ∀ b ∈ utf8 p.1, b < 0x80 := fun b hb =>
    UInt8.lt_of_le_of_lt (hupper b hb).2 (by decide)
  have hempty : toAsciiUppercase (lit "").bytes ≠ utf8 p.1 := by
    have hlit : toAsciiUppercase (lit "").bytes = [] := by decide
    rw [hlit]
    exact hne.symm
  have hone : ∀ r : Recording, isRequest p.1 r =
      r.name?.any fun n => decide (toAsciiUppercase n.bytes = utf8 p.1) := by
    intro r
    cases r with
    | received frame =>
      rcases frame with _ | _ | _ | _ | (_ | (_ | ⟨arg, args⟩)) | _
      all_goals try rfl
      rcases arg with _ | _ | _ | (_ | b) | _ | _
      all_goals try exact (decide_eq_false hempty).symm
      exact decide_eq_decide.mpr (uppercase_lossy hascii b).symm
    | latency us => rfl
    | answered v => rfl
    | evicted k => rfl
    | connectionOpened => rfl
    | connectionClosed => rfl
    | rdbSave => rfl
    | totalKeys k => rfl
  induction rs with
  | nil => rfl
  | cons r rs ih =>
    rw [receivedAs] at ih ⊢
    rw [List.countP_cons, ih, hone, receivedNames, receivedNames, List.filterMap_cons]
    cases r.name? with
    | none => rfl
    | some n => exact (List.countP_cons ..).symm

/-! ### Reading a command's series -/

/-- Only the families of the counted names speak about commands. -/
theorem values_command (s : MetricsSnapshot) {name : Bytes} (hname : commandSeries <+: name) :
    values (metricsText s) name =
      s.commandCounts.flatMap fun c =>
        valuesOf Sample.metric (samples (commandFamily c.1 c.2)) name := by
  have hcounters : name ∉ ((counters s).map fun c =>
      (⟨utf8 c.1, some [], c.2.2.2⟩ : Sample)).map Sample.metric := by
    have htexts : ∀ c ∈ counterTexts, ¬ commandSeries <+: utf8 c.1 := by decide
    intro h
    rw [List.map_map] at h
    obtain ⟨c, hc, rfl⟩ := List.mem_map.mp h
    exact htexts _ (mem_counterTexts hc) hname
  have hhistogram : name ∉ (histogramSamples s).map Sample.metric := by
    have hmetrics : ∀ metric ∈ [(bucket []).1, latencyCount.1, latencySum.1],
        ¬ commandSeries <+: metric := by decide
    intro h
    obtain ⟨t, ht, rfl⟩ := List.mem_map.mp h
    exact hmetrics _ (metric_histogramSamples s t ht) hname
  rw [values, samples_metricsText, valuesOf_append, valuesOf_append,
    valuesOf_eq_nil.mpr hcounters, valuesOf_eq_nil.mpr hhistogram, valuesOf_flatMap,
    List.nil_append, List.append_nil]

theorem ne_command {name : Bytes} (hname : commandSeries <+: name) : name ≠ utf8 "Command" := by
  rintro rfl
  exact absurd hname (by decide)

theorem length_family (n : Str) {name : Bytes} (hname : commandSeries <+: name)
    (count : UInt64) :
    (valuesOf Sample.metric (samples (commandFamily n count)) name).length =
      3 * (injected n).count name + (laterNames n.bytes).count name +
        (metricName n).toList.count name := by
  rw [length_valuesOf, count_commandFamily n count (ne_command hname)]

theorem family_of_single {n : Str} {name : Bytes} (count : UInt64)
    (h : ∀ name ∈ injected n, ¬ commandSeries <+: name) (hname : commandSeries <+: name) :
    (valuesOf Sample.metric (samples (commandFamily n count)) name).length =
      if metricName n = some name then 1 else 0 := by
  have hinjected : (injected n).count name = 0 :=
    List.count_eq_zero.mpr fun hmem => h name hmem hname
  have hlater : (laterNames n.bytes).count name = 0 :=
    List.count_eq_zero.mpr fun hmem => not_prefix_laterNames h name hmem hname
  rw [length_family n hname, hinjected, hlater]
  cases metricName n with
  | none => rfl
  | some y =>
    by_cases hy : y = name
    · simp [hy]
    · simp [hy]

section Page

variable (F : FloatText) (ord : CountOrder) (uptimeSeconds : UInt64) (rs : List Recording)

/-- The text of the page after the run. -/
def page (ord : CountOrder) (uptimeSeconds : UInt64) (rs : List Recording) : Bytes :=
  responseBody (handleMetrics (Metrics.run rs) ord uptimeSeconds)

/-- The values that the family of a received name gives to a metric. -/
def familyValues (rs : List Recording) (name : Bytes) (n : Str) : List Bytes :=
  valuesOf Sample.metric (samples (commandFamily n (UInt64.ofNat ((receivedNames rs).count n))))
    name

theorem values_page {name : Bytes} (hname : commandSeries <+: name) :
    values (page ord uptimeSeconds rs) name =
      (Metrics.countedNames ord uptimeSeconds rs).flatMap (familyValues rs name) := by
  rw [page, responseBody_handleMetrics, values_command _ hname,
    Metrics.run_snapshot_commandCounts, List.flatMap_map]
  rfl

/-- A metric has at most one sample when no family gives it two and no two
families give it one. -/
theorem values_page_le_one {name : Bytes} (hname : commandSeries <+: name) :
    (values (page ord uptimeSeconds rs) name).length ≤ 1 ↔
      (∀ n ∈ receivedNames rs, (familyValues rs name n).length ≤ 1) ∧
        ∀ n ∈ receivedNames rs, ∀ n' ∈ receivedNames rs,
          familyValues rs name n ≠ [] → familyValues rs name n' ≠ [] → n = n' := by
  rw [values_page ord uptimeSeconds rs hname,
    length_flatMap_le_one_of_nodup (Metrics.nodup_countedNames ord uptimeSeconds rs)]
  simp only [Metrics.mem_countedNames]

/-- No metric has two samples exactly when no name injects one and no two names
have the same. -/
theorem once_iff :
    (∀ x, (values (page ord uptimeSeconds rs) (commandSeries ++ x)).length ≤ 1) ↔
      (∀ n ∈ receivedNames rs, ∀ name ∈ injected n, ¬ commandSeries <+: name) ∧
        ∀ n ∈ receivedNames rs, ∀ n' ∈ receivedNames rs, ∀ name,
          metricName n = some name → metricName n' = some name → n = n' := by
  constructor
  · intro h
    refine ⟨?_, fun n hn n' hn' name hm hm' => ?_⟩
    · rintro n hn name hname ⟨x, rfl⟩
      have hone :=
        ((values_page_le_one ord uptimeSeconds rs (List.prefix_append ..)).mp (h x)).1 n hn
      have hpos := List.count_pos_iff.mpr hname
      rw [familyValues, length_family n (List.prefix_append ..)] at hone
      omega
    · obtain ⟨x, rfl⟩ := commandSeries_metricName hm
      have hsome : ∀ k, metricName k = some (commandSeries ++ x) →
          familyValues rs (commandSeries ++ x) k ≠ [] := by
        intro k hk hnil
        have hlen := length_family k (List.prefix_append commandSeries x)
          (UInt64.ofNat ((receivedNames rs).count k))
        rw [familyValues] at hnil
        rw [hnil, hk] at hlen
        simp at hlen
      exact ((values_page_le_one ord uptimeSeconds rs (List.prefix_append ..)).mp (h x)).2
        n hn n' hn' (hsome n hm) (hsome n' hm')
  · rintro ⟨hsingle, hdistinct⟩ x
    refine (values_page_le_one ord uptimeSeconds rs (List.prefix_append ..)).mpr
      ⟨fun n hn => ?_, fun n hn n' hn' hne hne' => ?_⟩
    · rw [familyValues, family_of_single _ (hsingle n hn) (List.prefix_append _ x)]
      split
      · exact le_rfl
      · exact Nat.zero_le 1
    · have hmetric : ∀ k ∈ receivedNames rs, familyValues rs (commandSeries ++ x) k ≠ [] →
          metricName k = some (commandSeries ++ x) := by
        intro k hk hsome
        by_contra hnot
        have hlen := family_of_single (UInt64.ofNat ((receivedNames rs).count k)) (hsingle k hk)
          (List.prefix_append _ x)
        rw [if_neg hnot] at hlen
        exact hsome (List.length_eq_zero_iff.mp hlen)
      exact hdistinct n hn n' hn' _ (hmetric n hn hne) (hmetric n' hn' hne')

/-- What the page says about a supported command that was received. -/
theorem values_received
    (honce : ∀ x, (values (page ord uptimeSeconds rs) (commandSeries ++ x)).length ≤ 1)
    {p : String × ArgParser} (hp : p ∈ parsers F) {n : Str} (hn : n ∈ receivedNames rs)
    (hupper : toAsciiUppercase n.bytes = utf8 p.1) :
    values (page ord uptimeSeconds rs) (exportedSeries p.1) =
      [displayU64 (UInt64.ofNat (receivedAs p.1 rs))] := by
  have hdistinct := ((once_iff ord uptimeSeconds rs).mp honce).2
  have hcount : receivedAs p.1 rs = (receivedNames rs).count n := by
    rw [receivedAs_eq hp, List.count]
    refine List.countP_congr fun k hk => ?_
    rw [decide_eq_true_eq, beq_iff_eq]
    constructor
    · intro hkupper
      exact hdistinct k hk n hn _ (metricName_of_upper hp hkupper) (metricName_of_upper hp hupper)
    · rintro rfl
      exact hupper
  have hmem : displayU64 (UInt64.ofNat (receivedAs p.1 rs)) ∈
      values (page ord uptimeSeconds rs) (exportedSeries p.1) := by
    rw [exportedSeries, values_page ord uptimeSeconds rs (List.prefix_append ..), List.mem_flatMap]
    refine ⟨n, (Metrics.mem_countedNames ord uptimeSeconds rs).mpr hn, ?_⟩
    rw [familyValues, samples_of_upper hp hupper, hcount]
    simp [valuesOf, exportedSeries]
  have hlen := honce (toAsciiLowercase (utf8 p.1))
  rw [← exportedSeries] at hlen
  cases hvalues : values (page ord uptimeSeconds rs) (exportedSeries p.1) with
  | nil =>
    rw [hvalues] at hmem
    cases hmem
  | cons v vs =>
    rw [hvalues] at hmem hlen
    obtain rfl : vs = [] := List.length_eq_zero_iff.mp (by simpa using hlen)
    rw [List.mem_singleton.mp hmem]

theorem received_iff {p : String × ArgParser} (hp : p ∈ parsers F) :
    receivedAs p.1 rs ≠ 0 ↔ ∃ n ∈ receivedNames rs, toAsciiUppercase n.bytes = utf8 p.1 := by
  rw [receivedAs_eq hp, ← Nat.pos_iff_ne_zero, List.countP_pos_iff]
  simp only [decide_eq_true_eq]

theorem displayU64_ofNat (k : ℕ) : displayU64 (UInt64.ofNat k) = decimal k ↔ k < 2 ^ 64 := by
  rw [displayU64, UInt64.toNat_ofNat']
  constructor
  · intro h
    have hnum := congrArg parseNat h
    rw [parseNat_decimal, parseNat_decimal, Option.some_inj] at hnum
    rw [← hnum]
    exact Nat.mod_lt _ (by norm_num)
  · intro h
    rw [Nat.mod_eq_of_lt h]

/-- The page exports each command once, with its total, exactly when the received
names stay apart on it. -/
theorem commands_exported :
    ExportedOnce F (responseBody (handleMetrics (Metrics.run rs) ord uptimeSeconds)) rs ↔
      NamesApart F rs := by
  constructor
  · rintro ⟨honce, htotal⟩
    obtain ⟨hsingle, hdistinct⟩ := (once_iff ord uptimeSeconds rs).mp honce
    refine ⟨hdistinct, hsingle, fun n hn p hp hm => ?_, fun p hp => ?_⟩
    · have hreceived : receivedAs p.1 rs ≠ 0 := by
        intro hzero
        have hvalues := htotal p hp
        rw [if_pos hzero] at hvalues
        have hlen := family_of_single (UInt64.ofNat ((receivedNames rs).count n)) (hsingle n hn)
          (List.prefix_append commandSeries (toAsciiLowercase (utf8 p.1)))
        rw [← exportedSeries, if_pos hm] at hlen
        have hnil := values_page ord uptimeSeconds rs
          (List.prefix_append commandSeries (toAsciiLowercase (utf8 p.1)))
        rw [← exportedSeries, page, hvalues] at hnil
        have hempty := List.flatMap_eq_nil_iff.mp hnil.symm n
          ((Metrics.mem_countedNames ord uptimeSeconds rs).mpr hn)
        rw [familyValues] at hempty
        rw [hempty] at hlen
        cases hlen
      obtain ⟨k, hk, hupper⟩ := (received_iff F rs hp).mp hreceived
      rw [hdistinct n hn k hk _ hm (metricName_of_upper hp hupper)]
      exact hupper
    · by_cases hzero : receivedAs p.1 rs = 0
      · rw [hzero]
        norm_num
      · obtain ⟨k, hk, hupper⟩ := (received_iff F rs hp).mp hzero
        have hvalues := htotal p hp
        rw [if_neg hzero, ← page,
          values_received F ord uptimeSeconds rs honce hp hk hupper] at hvalues
        exact (displayU64_ofNat _).mp (List.cons.inj hvalues).1
  · rintro ⟨hdistinct, hsingle, hspelled, hbounded⟩
    have honce := (once_iff ord uptimeSeconds rs).mpr ⟨hsingle, hdistinct⟩
    refine ⟨honce, fun p hp => ?_⟩
    by_cases hzero : receivedAs p.1 rs = 0
    · rw [if_pos hzero, ← page, exportedSeries,
        values_page ord uptimeSeconds rs (List.prefix_append ..), List.flatMap_eq_nil_iff]
      intro n hn
      rw [Metrics.mem_countedNames] at hn
      have hnot : metricName n ≠ some (exportedSeries p.1) := fun hm =>
        (received_iff F rs hp).mpr ⟨n, hn, hspelled n hn p hp hm⟩ hzero
      have hlen := family_of_single (UInt64.ofNat ((receivedNames rs).count n)) (hsingle n hn)
        (List.prefix_append commandSeries (toAsciiLowercase (utf8 p.1)))
      rw [← exportedSeries, if_neg hnot] at hlen
      exact List.length_eq_zero_iff.mp hlen
    · obtain ⟨k, hk, hupper⟩ := (received_iff F rs hp).mp hzero
      rw [if_neg hzero, ← page, values_received F ord uptimeSeconds rs honce hp hk hupper,
        (displayU64_ofNat _).mpr (hbounded p hp)]

end Page

/-- `GET` and `get` are counted apart and exported under one name. -/
theorem commands_collide :
    let F : FloatText := noFloats
    let request (name : String) : Recording :=
      .received (.array (some [.bulkString (some (utf8 name))]))
    let rs := [request "GET", request "get"]
    ¬ ExportedOnce F (responseBody (handleMetrics (Metrics.run rs) .sorted 0)) rs := by
  intro F request rs h
  have hdistinct := ((once_iff .sorted 0 rs).mp h.once).2
  have hget : ("GET", parseGet) ∈ parsers F := by simp [parsers]
  have hupper : ∀ name ∈ ["GET", "get"],
      toAsciiUppercase (fromUtf8Lossy (utf8 name)).bytes = utf8 "GET" := by decide
  have hsame := hdistinct (fromUtf8Lossy (utf8 "GET")) (List.mem_cons_self ..)
    (fromUtf8Lossy (utf8 "get")) (List.mem_cons_of_mem _ (List.mem_cons_self ..)) _
    (metricName_of_upper hget (hupper "GET" (by decide)))
    (metricName_of_upper hget (hupper "get" (by decide)))
  exact absurd hsame (by decide)

end FireRedis
