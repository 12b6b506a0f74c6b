import FireRedis.Http

/-!
# What the metrics page says

The samples of the page are those of the fixed counters, those of each counted
command name, and those of the histogram.
-/

namespace FireRedis.Http
open Str Decimal Exposition

/-! ### Responses -/

theorem responseBody_skip {b : UInt8} (hb : b ≠ 0x0D) (rest : Bytes) :
    responseBody (b :: rest) = responseBody rest := by
  have hpre : (crlf ++ crlf).isPrefixOf (b :: rest) = false := by
    simp [crlf, List.isPrefixOf, hb.symm]
  rw [responseBody, hpre]
  rfl

theorem responseBody_line {l : Bytes} (h : 0x0D ∉ l) (rest : Bytes) :
    responseBody (l ++ rest) = responseBody rest := by
  induction l with
  | nil => rfl
  | cons b l ih =>
    obtain ⟨hb, hl⟩ : 0x0D ≠ b ∧ 0x0D ∉ l := by simpa using h
    rw [List.cons_append, responseBody_skip hb.symm, ih hl]

theorem responseBody_crlf {b : UInt8} (hb : b ≠ 0x0D) (rest : Bytes) :
    responseBody (crlf ++ b :: rest) = responseBody (b :: rest) := by
  have hpre : (crlf ++ crlf).isPrefixOf (crlf ++ b :: rest) = false := by
    simp [crlf, List.isPrefixOf, hb.symm]
  show responseBody (0x0D :: 0x0A :: b :: rest) = _
  rw [responseBody, show 0x0D :: 0x0A :: b :: rest = crlf ++ b :: rest from rfl, hpre]
  exact responseBody_skip (b := 0x0A) (by decide) _

/-- A header line is passed over. -/
theorem responseBody_header {l : Bytes} (hl : 0x0D ∉ l) {b : UInt8} (hb : b ≠ 0x0D)
    (rest : Bytes) : responseBody (l ++ (crlf ++ b :: rest)) = responseBody (b :: rest) := by
  rw [responseBody_line hl, responseBody_crlf hb]

theorem digits_plain {c : UInt8} (hc : isDigit c = false) (n : ℕ) : c ∉ decimal n := by
  intro h
  rw [isDigit_of_mem_decimal h] at hc
  cases hc

theorem responseBody_okResponse {contentType : Bytes} (h : 0x0D ∉ contentType) (body : Bytes) :
    responseBody (okResponse contentType body) = body := by
  have hlen : 0x0D ∉ utf8 "ontent-Length: " ++ decimal body.length := by
    rw [List.mem_append]
    rintro (h | h)
    · exact absurd h (by decide)
    · exact digits_plain (by decide) _ h
  have htype : 0x0D ∉ utf8 "ontent-Type: " ++ contentType := by
    rw [List.mem_append]
    rintro (h' | h')
    · exact absurd h' (by decide)
    · exact h h'
  have hresponse : okResponse contentType body =
      utf8 "HTTP/1.1 200 OK" ++ (crlf ++ 0x43 ::
        ((utf8 "ontent-Length: " ++ decimal body.length) ++ (crlf ++ 0x43 ::
          ((utf8 "ontent-Type: " ++ contentType) ++ (crlf ++ 0x43 ::
            (utf8 "onnection: close" ++ (crlf ++ crlf ++ body))))))) := by
    have hok : ok = utf8 "HTTP/1.1 200 OK" ++ crlf := by decide
    have hclen : utf8 "Content-Length: " = 0x43 :: utf8 "ontent-Length: " := by decide
    have hctype : utf8 "Content-Type: " = 0x43 :: utf8 "ontent-Type: " := by decide
    have hcrlf : utf8 "\r\n" = crlf := by decide
    have hclose : utf8 "\r\nConnection: close\r\n\r\n" =
      crlf ++ 0x43 :: (utf8 "onnection: close" ++ (crlf ++ crlf)) := by decide
    simp only [okResponse, hok, contentLen, hclen, hctype, hcrlf, responseHeaders, hclose,
      List.append_assoc, List.cons_append]
  rw [hresponse, responseBody_header (by decide) (by decide), responseBody_skip (by decide),
    responseBody_header hlen (by decide), responseBody_skip (by decide),
    responseBody_header htype (by decide), responseBody_skip (by decide),
    responseBody_line (by decide)]
  rfl

theorem responseBody_handleMetrics (m : Metrics) (ord : CountOrder) (uptimeSeconds : UInt64) :
    responseBody (handleMetrics m ord uptimeSeconds) =
      metricsText (m.snapshot ord uptimeSeconds) :=
  responseBody_okResponse (by decide) _

/-! ### Families -/

theorem samples_family {name help kind value : Bytes} (hname : Plain name) (hhelp : 0x0A ∉ help)
    (hkind : 0x0A ∉ kind) (hvalue : 0x0A ∉ value) (hword : Word value) :
    samples (family name help kind value) = [⟨name, some [], value⟩] := by
  have hlf := hname.2.2.1
  have hhelpLine : samples (utf8 "# HELP " ++ name ++ 0x20 :: help) = [] := by
    have hcons : utf8 "# HELP " ++ name ++ 0x20 :: help =
        0x23 :: (utf8 " HELP " ++ name ++ 0x20 :: help) := rfl
    have hhash : 0x0A ∉ utf8 " HELP " := by decide
    rw [hcons]
    exact samples_comment (by simp [hhash, hlf, hhelp])
  have htypeLine : samples (utf8 "# TYPE " ++ name ++ 0x20 :: kind) = [] := by
    have hcons : utf8 "# TYPE " ++ name ++ 0x20 :: kind =
        0x23 :: (utf8 " TYPE " ++ name ++ 0x20 :: kind) := rfl
    have hhash : 0x0A ∉ utf8 " TYPE " := by decide
    rw [hcons]
    exact samples_comment (by simp [hhash, hlf, hkind])
  have hvalueLine : 0x0A ∉ name ++ 0x20 :: value := by simp [hlf, hvalue]
  rw [family, samples_unlines, List.flatMap_cons, List.flatMap_cons, List.flatMap_cons, hhelpLine,
    htypeLine, samples_of_line hvalueLine, sample_line hname hword]
  rfl

/-- The help, the type and the value that a command name is written with. -/
def helpText (cmd : Str) : Bytes := utf8 "Command count for " ++ cmd.bytes

theorem samples_comment_text {p : Bytes} (hp : 0x0A ∉ p) (l : Bytes) :
    samples (0x23 :: p ++ l) = laterSamples l := by
  have hcomment : 0x0A ∉ 0x23 :: p := by simp [hp]
  rw [samples_split, firstLine_prepend hcomment, laterSamples, later_prepend hcomment,
    List.cons_append, sample, nameOf_comment]
  rfl

/-- The metric of the sample line of a command name. -/
def metricName (cmd : Str) : Option Bytes :=
  nameOf (firstLine (commandSeries ++ safeName cmd.bytes ++ [0x20]))

/-- The metrics that the later lines of a command name, as exported, are samples of. -/
def injected (cmd : Str) : List Bytes := laterNames (safeName cmd.bytes ++ [0x20])

/-- The later lines that a command name writes into its help, its type and its sample. -/
def furtherSamples (cmd : Str) (count : UInt64) : List Sample :=
  laterSamples (safeName cmd.bytes ++ 0x20 :: helpText cmd) ++
    laterSamples (safeName cmd.bytes ++ 0x20 :: utf8 "counter") ++
    laterSamples (safeName cmd.bytes ++ 0x20 :: displayU64 count)

def ownSample (cmd : Str) (count : UInt64) : Option Sample :=
  sample (firstLine (commandSeries ++ safeName cmd.bytes ++ 0x20 :: displayU64 count))

theorem laterSamples_series (cmd r : Bytes) :
    laterSamples (commandSeries ++ cmd ++ r) = laterSamples (cmd ++ r) := by
  rw [laterSamples, List.append_assoc, later_prepend (by decide), laterSamples]

/-- The help and the type of a command name write its later lines once more. -/
theorem samples_commandFamily (cmd : Str) (count : UInt64) :
    samples (commandFamily cmd count) =
      laterSamples (safeName cmd.bytes ++ 0x20 :: helpText cmd) ++
        (laterSamples (safeName cmd.bytes ++ 0x20 :: utf8 "counter") ++
          samples (commandSeries ++ safeName cmd.bytes ++ 0x20 :: displayU64 count)) := by
  have hcomment : ∀ (kind : String) (r : Bytes), utf8 kind = 0x23 :: (utf8 kind).tail →
      0x0A ∉ (utf8 kind).tail → samples (utf8 kind ++ (commandSeries ++ safeName cmd.bytes) ++
        0x20 :: r) = laterSamples (safeName cmd.bytes ++ 0x20 :: r) := by
    intro kind r hkind hline
    rw [List.append_assoc, hkind, samples_comment_text hline, laterSamples_series]
  rw [commandFamily, family, samples_unlines, List.flatMap_cons, List.flatMap_cons,
    List.flatMap_cons, List.flatMap_nil, List.append_nil, ← helpText,
    hcomment "# HELP " _ (by decide) (by decide), hcomment "# TYPE " _ (by decide) (by decide)]

/-- A command name writes its own sample and those of its later lines, which are
in its help and its type as well. -/
theorem mem_commandFamily {s : Sample} (cmd : Str) (count : UInt64) :
    s ∈ samples (commandFamily cmd count) ↔
      s ∈ furtherSamples cmd count ∨ ownSample cmd count = some s := by
  rw [samples_commandFamily,
    samples_split (commandSeries ++ safeName cmd.bytes ++ 0x20 :: displayU64 count),
    laterSamples_series, furtherSamples, ownSample]
  simp only [List.mem_append, Option.mem_toList]
  tauto

theorem not_mem_displayU64 (n : UInt64) : 0x0A ∉ displayU64 n := digits_plain (by decide) _

theorem word_decimal (n : ℕ) : Word (decimal n) := by
  have hdigit : ∀ b, isDigit b = true → endsName b = false := by
    intro b hb
    by_contra hends
    simp only [endsName, isBlank, Bool.not_eq_false, Bool.or_eq_true, decide_eq_true_eq] at hends
    rcases hends with (rfl | rfl) | rfl <;> cases hb
  exact fun b hb => hdigit b (isDigit_of_mem_decimal hb)

theorem word_displayU64 (n : UInt64) : Word (displayU64 n) := word_decimal _

theorem word_displayI64 (i : Int64) : Word (displayI64 i) := by
  unfold displayI64
  split
  · intro b hb
    rcases List.mem_cons.mp hb with rfl | hb
    · rfl
    · exact word_decimal _ b hb
  · exact word_decimal _

theorem plain_commandSeries : Plain commandSeries := by decide +kernel

/-- The first line of the sample text starts with the metric of the name. -/
theorem nameOf_sampleLine (cmd : Str) (r : Bytes) :
    nameOf (firstLine (commandSeries ++ safeName cmd.bytes ++ 0x20 :: r)) = metricName cmd := by
  have hline : ∀ a : Bytes,
      nameOf (commandSeries ++ firstLine (a ++ 0x20 :: r)) =
        nameOf (commandSeries ++ firstLine (a ++ [0x20])) := by
    intro a
    induction a using text_induction with
    | line l h =>
      have hskip : skip (commandSeries ++ l) ≠ [] := by
        rw [skip_plain plain_commandSeries]
        exact List.append_ne_nil_of_left_ne_nil (by decide) _
      have hspace : firstLine (0x20 :: r) = 0x20 :: firstLine r :=
        firstLine_prepend (p := [0x20]) (by decide) r
      rw [firstLine_prepend h, firstLine_prepend h, hspace, ← List.append_assoc,
        nameOf_space hskip, List.append_assoc]
      rfl
    | more l rest h =>
      rw [List.append_assoc, List.append_assoc, List.cons_append, List.cons_append,
        firstLine_cons h, firstLine_cons h]
  have hseries : 0x0A ∉ commandSeries := by decide
  rw [metricName, List.append_assoc, List.append_assoc, firstLine_prepend hseries,
    firstLine_prepend hseries, hline]

theorem ownSample_metric (cmd : Str) (count : UInt64) :
    (ownSample cmd count).map Sample.metric = metricName cmd := by
  rw [ownSample, sample, Option.map_map, ← nameOf_sampleLine cmd (displayU64 count)]
  cases nameOf (firstLine (commandSeries ++ safeName cmd.bytes ++ 0x20 :: displayU64 count)) with
  | none => rfl
  | some name => exact congrArg some (sampleOf_metric _ _)

theorem nameOf_helpText (cmd : Str) :
    nameOf (firstLine (helpText cmd)) = some (utf8 "Command") := by
  have hsplit : utf8 "Command count for " = utf8 "Command" ++ 0x20 :: utf8 "count for " := by decide
  rw [helpText, firstLine_prepend (by decide), hsplit, List.append_assoc]
  exact nameOf_line (by decide +kernel) rfl _

/-- The help, the type and the sample of a command name each repeat its later
lines; the help does so a second time, as the name was sent. -/
theorem count_commandFamily (cmd : Str) (count : UInt64) {name : Bytes}
    (hname : name ≠ utf8 "Command") :
    ((samples (commandFamily cmd count)).map Sample.metric).count name =
      3 * (injected cmd).count name + (laterNames cmd.bytes).count name +
        (metricName cmd).toList.count name := by
  have hlater : ∀ r : Bytes, nameOf (firstLine r) ≠ some name →
      (laterNames (safeName cmd.bytes ++ 0x20 :: r)).count name =
        (injected cmd).count name + (laterNames r).count name :=
    fun r hr => count_laterNames_space hr (safeName cmd.bytes)
  have hhelp := hlater (helpText cmd) (by rw [nameOf_helpText]; simpa using hname.symm)
  have hcounter : nameOf (firstLine (utf8 "counter")) = none := by decide
  have hkind := hlater (utf8 "counter") (by rw [hcounter]; exact Option.some_ne_none name |>.symm)
  have hdigits : nameOf (firstLine (displayU64 count)) = none := by
    rw [firstLine_line (not_mem_displayU64 count), nameOf_word (word_displayU64 count)]
  have hvalue := hlater (displayU64 count) (by rw [hdigits]; exact Option.some_ne_none name |>.symm)
  have hsent : laterNames (helpText cmd) = laterNames cmd.bytes := laterNames_prepend (by decide) _
  have hnone : laterNames (utf8 "counter") = [] := laterNames_line (by decide)
  rw [hsent] at hhelp
  rw [hnone, List.count_nil] at hkind
  rw [laterNames_line (not_mem_displayU64 count), List.count_nil] at hvalue
  have hsample : (names (commandSeries ++ safeName cmd.bytes ++
      0x20 :: displayU64 count)).count name =
        (metricName cmd).toList.count name + (injected cmd).count name := by
    rw [names_split, nameOf_sampleLine, List.count_append, List.append_assoc,
      laterNames_prepend (by decide), hvalue, Nat.add_zero]
  rw [samples_commandFamily, List.map_append, List.map_append, map_metric_laterSamples,
    map_metric_laterSamples, map_metric_samples, List.count_append, List.count_append, hhelp,
    hkind, hsample]
  omega

theorem commandSeries_metricName {cmd : Str} {name : Bytes} (h : metricName cmd = some name) :
    commandSeries <+: name := by
  rw [metricName, List.append_assoc, firstLine_prepend (by decide), nameOf,
    skip_plain plain_commandSeries] at h
  split at h
  · obtain rfl := Option.some.inj h
    rw [List.takeWhile_append_of_pos fun b hb => by rw [plain_commandSeries.2.1 b hb]; rfl]
    exact List.prefix_append _ _
  · cases h

/-- The fixed texts of the page's families: name, help and type. -/
def counterTexts : List (String × String × String) :=
  (counters (Metrics.new.snapshot .sorted 0)).map fun c => (c.1, c.2.1, c.2.2.1)

theorem mem_counterTexts {s : MetricsSnapshot} {c : String × String × String × Bytes}
    (h : c ∈ counters s) : (c.1, c.2.1, c.2.2.1) ∈ counterTexts := by
  have htexts : ((counters s).map fun c => (c.1, c.2.1, c.2.2.1)) = counterTexts := rfl
  rw [← htexts]
  exact List.mem_map_of_mem h

theorem counterTexts_plain : ∀ c ∈ counterTexts,
    Plain (utf8 c.1) ∧ 0x0A ∉ utf8 c.2.1 ∧ 0x0A ∉ utf8 c.2.2 := by
  decide +kernel

theorem not_mem_displayI64 (i : Int64) : 0x0A ∉ displayI64 i := by
  intro h
  unfold displayI64 at h
  split at h
  · rcases List.mem_cons.mp h with h | h
    · exact absurd h (by decide)
    · exact digits_plain (by decide) _ h
  · exact digits_plain (by decide) _ h

theorem samples_counters (s : MetricsSnapshot) :
    ((counters s).flatMap fun c =>
        samples (family (utf8 c.1) (utf8 c.2.1) (utf8 c.2.2.1) c.2.2.2)) =
      (counters s).map fun c => ⟨utf8 c.1, some [], c.2.2.2⟩ := by
  have hvalues : ∀ c ∈ counters s, 0x0A ∉ c.2.2.2 ∧ Word c.2.2.2 := by
    simp only [counters, List.forall_mem_cons, not_mem_displayI64, not_mem_displayU64,
      word_displayI64, word_displayU64, not_false_eq_true, and_self, true_and]
    intro c hc
    cases hc
  rw [List.flatMap_def, List.map_congr_left (g := fun c => [⟨utf8 c.1, some [], c.2.2.2⟩]),
    ← List.flatMap_def, List.map_eq_flatMap]
  intro c hc
  obtain ⟨hname, hhelp, hkind⟩ := counterTexts_plain _ (mem_counterTexts hc)
  exact samples_family hname hhelp hkind (hvalues c hc).1 (hvalues c hc).2

/-! ### The histogram -/

def bucket (le : Bytes) : Series := (utf8 "fire_redis_latency_us_bucket", [(utf8 "le", le)])

def latencyCount : Series := (utf8 "fire_redis_latency_us_count", [])

def latencySum : Series := (utf8 "fire_redis_latency_us_sum", [])

def sampleOn (series : Series) (value : Bytes) : Sample := ⟨series.1, some series.2, value⟩

def histogramSamples (s : MetricsSnapshot) : List Sample :=
  (s.latencyBuckets.map fun b => sampleOn (bucket (displayU64 b.1)) (displayU64 b.2)) ++
    [sampleOn (bucket (utf8 "+Inf")) (displayU64 s.latencyCount),
      sampleOn latencyCount (displayU64 s.latencyCount),
      sampleOn latencySum (displayU64 s.totalLatencyUs)]

theorem samples_bucket {le value : Bytes} (hle : 0x0A ∉ le) (hquote : 0x22 ∉ le)
    (hescape : 0x5C ∉ le) (hvalue : 0x0A ∉ value) (hword : Word value) :
    samples (bucketSeries le ++ 0x20 :: value) = [sampleOn (bucket le) value] := by
  have hopen : utf8 "fire_redis_latency_us_bucket\x7ble=\"" =
    utf8 "fire_redis_latency_us_bucket" ++ 0x7B :: (utf8 "le" ++ [0x3D, 0x22]) := by decide
  have hclose : utf8 "\"\x7d" = [0x22, 0x7D] := by decide
  have htext : bucketSeries le ++ 0x20 :: value = utf8 "fire_redis_latency_us_bucket" ++
      0x7B :: (utf8 "le" ++ 0x3D :: 0x22 :: (le ++ 0x22 :: 0x7D :: 0x20 :: value)) := by
    rw [bucketSeries, hopen, hclose]
    simp only [List.append_assoc, List.cons_append, List.nil_append]
  have hname : 0x0A ∉ utf8 "fire_redis_latency_us_bucket" := by decide
  have hkey : 0x0A ∉ utf8 "le" := by decide
  have hline : 0x0A ∉ bucketSeries le ++ 0x20 :: value := by
    rw [htext]
    simp [hname, hkey, hle, hvalue]
  rw [samples_of_line hline, htext,
    sample_labelled (by decide +kernel) (by decide +kernel) (by decide +kernel) hquote hescape
      hword]
  rfl

theorem samples_histogram (s : MetricsSnapshot) : samples (histogram s) = histogramSamples s := by
  have hbuckets : ((s.latencyBuckets.map fun b =>
      bucketSeries (displayU64 b.1) ++ 0x20 :: displayU64 b.2).flatMap samples) =
      s.latencyBuckets.map fun b => sampleOn (bucket (displayU64 b.1)) (displayU64 b.2) := by
    rw [List.flatMap_map]
    have hone : ∀ b : UInt64 × UInt64,
        samples (bucketSeries (displayU64 b.1) ++ 0x20 :: displayU64 b.2) =
          [sampleOn (bucket (displayU64 b.1)) (displayU64 b.2)] := fun b =>
      samples_bucket (not_mem_displayU64 _) (digits_plain (by decide) _)
        (digits_plain (by decide) _) (not_mem_displayU64 _) (word_displayU64 _)
    simp only [hone, List.map_eq_flatMap]
  have hplain : ∀ {name : Bytes} (n : UInt64), Plain name →
      samples (name ++ 0x20 :: displayU64 n) = [⟨name, some [], displayU64 n⟩] := by
    intro name n hname
    have hline : 0x0A ∉ name ++ 0x20 :: displayU64 n := by
      simp [hname.2.2.1, not_mem_displayU64 n]
    rw [samples_of_line hline, sample_line hname (word_displayU64 n)]
    rfl
  have hhelp :
      samples (utf8 "# HELP fire_redis_latency_us Command latency histogram buckets") = [] :=
    samples_comment (l := utf8 " HELP fire_redis_latency_us Command latency histogram buckets")
      (by decide)
  have htype : samples (utf8 "# TYPE fire_redis_latency_us histogram") = [] :=
    samples_comment (l := utf8 " TYPE fire_redis_latency_us histogram") (by decide)
  rw [histogram, samples_unlines, List.flatMap_append, List.flatMap_append, hbuckets]
  simp only [List.flatMap_cons, List.flatMap_nil, hhelp, htype]
  rw [samples_bucket (by decide) (by decide) (by decide) (not_mem_displayU64 _)
      (word_displayU64 _), hplain _ (by decide +kernel), hplain _ (by decide +kernel)]
  rfl

/-- The series of the histogram belong to its metrics. -/
theorem metric_histogramSamples (s : MetricsSnapshot) : ∀ t ∈ histogramSamples s,
    t.metric ∈ [(bucket []).1, latencyCount.1, latencySum.1] := by
  intro t ht
  rcases List.mem_append.mp ht with h | h
  · obtain ⟨b, -, rfl⟩ := List.mem_map.mp h
    exact List.mem_cons_self ..
  · simp only [List.mem_cons, List.not_mem_nil, or_false] at h
    rcases h with rfl | rfl | rfl
    · exact List.mem_cons_self ..
    · exact List.mem_cons_of_mem _ (List.mem_cons_self ..)
    · exact List.mem_cons_of_mem _ (List.mem_cons_of_mem _ (List.mem_cons_self ..))

theorem samples_metricsText (s : MetricsSnapshot) :
    samples (metricsText s) = ((counters s).map fun c => ⟨utf8 c.1, some [], c.2.2.2⟩) ++
      (s.commandCounts.flatMap fun c => samples (commandFamily c.1 c.2)) ++ histogramSamples s := by
  rw [metricsText, List.append_assoc]
  refine (samples_flatMap _ (counters s) _).trans ?_
  rw [← samples_counters, List.append_assoc, ← samples_histogram]
  exact congrArg _ (samples_flatMap _ s.commandCounts _)

end FireRedis.Http
