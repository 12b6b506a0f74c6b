import FireRedis.Base.Decimal

/-!
# Exposed metrics as lines of text

The text format in which metrics are exposed (version 0.0.4), as its readers take
it. A text is cut at its line feeds; blanks and tabs before a token say nothing. A
line is a sample unless its first token starts with `#`: the name of a metric, which
a blank, a tab or a brace ends, labels in braces if there are any, and a value.
-/

namespace Exposition

def lines (text : Bytes) : List Bytes := text.splitOn 0x0A

def unlines (ls : List Bytes) : Bytes := ls.flatMap (· ++ [0x0A])

def isBlank (b : UInt8) : Bool := b = 0x20 || b = 0x09

def endsName (b : UInt8) : Bool := isBlank b || b = 0x7B

def skip (text : Bytes) : Bytes := text.dropWhile isBlank

/-- The metric that a line is a sample of. -/
def nameOf (line : Bytes) : Option Bytes :=
  if (skip line).head? ≠ some 0x23 ∧ (skip line).any endsName then
    some ((skip line).takeWhile (!endsName ·))
  else none

/-- The bytes after the given one, which has to be the next. -/
def expect (c : UInt8) (text : Bytes) : Option Bytes :=
  match skip text with
  | [] => none
  | b :: rest => if b = c then some rest else none

def unescape (b : UInt8) : Option UInt8 :=
  if b = 0x6E then some 0x0A else if b = 0x5C ∨ b = 0x22 then some b else none

/-- The value of a label up to its closing quote, and what follows. The flag says
that a backslash has been read. -/
def readQuoted : Bool → Bytes → Option (Bytes × Bytes)
  | _, [] => none
  | true, b :: rest => do
    let c ← unescape b
    let (value, rest) ← readQuoted false rest
    return (c :: value, rest)
  | false, b :: rest =>
    if b = 0x22 then some ([], rest)
    else if b = 0x5C then readQuoted true rest
    else do
      let (value, rest) ← readQuoted false rest
      return (b :: value, rest)

abbrev Labels := List (Bytes × Bytes)

/-- Labels up to the closing brace; a comma may stand before it. -/
def readPairs : ℕ → Bytes → Option (Labels × Bytes)
  | 0, _ => none
  | fuel + 1, text =>
    match expect 0x7D text with
    | some rest => some ([], rest)
    | none => do
      let name := (skip text).takeWhile fun b => !(isBlank b || b = 0x3D)
      let text ← expect 0x3D ((skip text).drop name.length)
      let text ← expect 0x22 text
      let (value, text) ← readQuoted false text
      match expect 0x2C text with
      | some rest => do
        let (labels, rest) ← readPairs fuel rest
        return ((name, value) :: labels, rest)
      | none => do
        let rest ← expect 0x7D text
        return ([(name, value)], rest)

def readLabels (text : Bytes) : Option (Labels × Bytes) :=
  match expect 0x7B text with
  | some rest => readPairs (rest.length + 1) rest
  | none => some ([], text)

/-- One sample. It has no labels to compare where its braces are malformed. -/
structure Sample where
  metric : Bytes
  labels : Option Labels
  value : Bytes
  deriving DecidableEq

/-- A metric with its labels. -/
abbrev Series := Bytes × Labels

def Sample.series (s : Sample) : Option Series := s.labels.map (s.metric, ·)

/-- The sample of the metric whose name a line has been found to start with. -/
def sampleOf (line metric : Bytes) : Sample :=
  match readLabels ((skip line).drop metric.length) with
  | some (labels, rest) => ⟨metric, some labels, (skip rest).takeWhile (!isBlank ·)⟩
  | none => ⟨metric, none, []⟩

def sample (line : Bytes) : Option Sample := (nameOf line).map (sampleOf line)

def samples (text : Bytes) : List Sample := (lines text).filterMap sample

def names (text : Bytes) : List Bytes := (lines text).filterMap nameOf

section Values

variable {κ : Type} [DecidableEq κ]

/-- The values of the samples with the given key. -/
def valuesOf (key : Sample → κ) (ss : List Sample) (k : κ) : List Bytes :=
  ss.filterMap fun s => if key s = k then some s.value else none

end Values

/-- The values the text gives to a metric, one for each sample. -/
def values (text metric : Bytes) : List Bytes := valuesOf Sample.metric (samples text) metric

/-- The number a series has when the text holds one sample of it. -/
def number (text : Bytes) (series : Series) : Option ℕ :=
  match valuesOf Sample.series (samples text) (some series) with
  | [v] => Decimal.parseNat v
  | _ => none

example : sample (Str.utf8 " up\x7b le =\"10\" , \x7d\t7 1395066363000") =
    some ⟨Str.utf8 "up", some [(Str.utf8 "le", Str.utf8 "10")], Str.utf8 "7"⟩ := by
  decide

/-! ### Lines -/

theorem lines_line {l : Bytes} (h : 0x0A ∉ l) : lines l = [l] := List.splitOn_eq_singleton h

theorem lines_append (a b : Bytes) : lines (a ++ 0x0A :: b) = lines a ++ lines b :=
  List.splitOn_append_cons_self a b

theorem lines_cons {l : Bytes} (h : 0x0A ∉ l) (rest : Bytes) :
    lines (l ++ 0x0A :: rest) = l :: lines rest := by
  rw [lines_append, lines_line h, List.singleton_append]

/-- A text is one line, or a line followed by a text. -/
theorem text_induction {P : Bytes → Prop} (line : ∀ l, 0x0A ∉ l → P l)
    (more : ∀ l rest, 0x0A ∉ l → P rest → P (l ++ 0x0A :: rest)) (t : Bytes) : P t := by
  induction hn : t.length using Nat.strongRecOn generalizing t with
  | _ n ih =>
    by_cases hlf : 0x0A ∈ t
    · obtain ⟨l, rest, rfl, hl⟩ := List.eq_append_cons_of_mem hlf
      refine more l rest hl (ih rest.length ?_ rest rfl)
      rw [← hn, List.length_append, List.length_cons]
      omega
    · exact line t hlf

theorem takeWhile_append_of_notMem {c : UInt8} {a : Bytes} (h : c ∉ a) (r : Bytes) :
    (a ++ r).takeWhile (· ≠ c) = a ++ r.takeWhile (· ≠ c) := by
  refine List.takeWhile_append_of_pos fun b hb => ?_
  have hne : b ≠ c := fun heq => h (heq ▸ hb)
  simpa using hne

def firstLine (text : Bytes) : Bytes := text.takeWhile (· ≠ 0x0A)

def later (text : Bytes) : List Bytes := (lines text).tail

theorem firstLine_line {l : Bytes} (h : 0x0A ∉ l) : firstLine l = l := by
  have hnil := takeWhile_append_of_notMem h []
  rwa [List.append_nil, List.takeWhile_nil, List.append_nil] at hnil

theorem firstLine_cons {l : Bytes} (h : 0x0A ∉ l) (rest : Bytes) :
    firstLine (l ++ 0x0A :: rest) = l := by
  have hl := firstLine_line h
  unfold firstLine at hl ⊢
  rw [List.takeWhile_append, hl, if_pos rfl]
  simp

theorem lines_eq (text : Bytes) : lines text = firstLine text :: later text := by
  induction text using text_induction with
  | line l h => rw [later, lines_line h, firstLine_line h, List.tail_cons]
  | more l rest h ih => rw [later, lines_cons h, firstLine_cons h, List.tail_cons]

theorem later_line {l : Bytes} (h : 0x0A ∉ l) : later l = [] := by
  rw [later, lines_line h, List.tail_cons]

theorem later_cons {l : Bytes} (h : 0x0A ∉ l) (rest : Bytes) :
    later (l ++ 0x0A :: rest) = lines rest := by
  rw [later, lines_cons h, List.tail_cons]

/-- Text put before the first line leaves the later ones as they are. -/
theorem later_prepend {p : Bytes} (hp : 0x0A ∉ p) (text : Bytes) :
    later (p ++ text) = later text := by
  induction text using text_induction with
  | line l h =>
    have hpl : 0x0A ∉ p ++ l := by simp [hp, h]
    rw [later_line h, later_line hpl]
  | more l rest h ih =>
    have hpl : 0x0A ∉ p ++ l := by simp [hp, h]
    rw [← List.append_assoc, later_cons hpl, later_cons h]

theorem firstLine_prepend {p : Bytes} (hp : 0x0A ∉ p) (text : Bytes) :
    firstLine (p ++ text) = p ++ firstLine text := takeWhile_append_of_notMem hp text

/-! ### Samples -/

theorem samples_append (a b : Bytes) : samples (a ++ 0x0A :: b) = samples a ++ samples b := by
  rw [samples, lines_append, List.filterMap_append]
  rfl

theorem samples_nil : samples [] = [] := rfl

theorem samples_unlines_append (ls : List Bytes) (rest : Bytes) :
    samples (unlines ls ++ rest) = ls.flatMap samples ++ samples rest := by
  induction ls with
  | nil => rfl
  | cons l ls ih =>
    have hcons : unlines (l :: ls) ++ rest = l ++ 0x0A :: (unlines ls ++ rest) := by
      simp [unlines]
    rw [hcons, samples_append, ih, List.flatMap_cons, List.append_assoc]

theorem samples_unlines (ls : List Bytes) : samples (unlines ls) = ls.flatMap samples := by
  have h := samples_unlines_append ls []
  rwa [samples_nil, List.append_nil, List.append_nil] at h

/-- The samples of texts that end in a line feed, put one after the other. -/
theorem samples_flatMap {α : Type} (g : α → List Bytes) (xs : List α) (rest : Bytes) :
    samples ((xs.flatMap fun x => unlines (g x)) ++ rest) =
      (xs.flatMap fun x => samples (unlines (g x))) ++ samples rest := by
  induction xs with
  | nil => rfl
  | cons x xs ih =>
    rw [List.flatMap_cons, List.flatMap_cons, List.append_assoc, samples_unlines_append, ih,
      samples_unlines, List.append_assoc]

theorem sampleOf_metric (line metric : Bytes) : (sampleOf line metric).metric = metric := by
  unfold sampleOf
  split <;> rfl

/-! ### Reading a line -/

theorem skip_cons {b : UInt8} (hb : isBlank b = false) (rest : Bytes) :
    skip (b :: rest) = b :: rest := by
  rw [skip, List.dropWhile_cons_of_neg (by simp [hb])]

theorem skip_eq_nil {a : Bytes} (h : skip a = []) (r : Bytes) : skip (a ++ r) = skip r := by
  rw [skip] at h ⊢
  rw [List.dropWhile_append, h]
  rfl

theorem skip_append {a : Bytes} (h : skip a ≠ []) (r : Bytes) : skip (a ++ r) = skip a ++ r := by
  rw [skip] at h
  rw [skip, skip, List.dropWhile_append, if_neg (by simpa using h)]

theorem expect_cons {b : UInt8} (hb : isBlank b = false) (c : UInt8) (rest : Bytes) :
    expect c (b :: rest) = if b = c then some rest else none := by
  rw [expect, skip_cons hb]

theorem nameOf_comment (l : Bytes) : nameOf (0x23 :: l) = none := by
  rw [nameOf, skip_cons (by decide)]
  exact if_neg fun h => h.1 rfl

/-- What stands before a blank is a name, or the blank is before the name too. -/
theorem nameOf_space {a : Bytes} (h : skip a ≠ []) (r : Bytes) :
    nameOf (a ++ 0x20 :: r) = nameOf (a ++ [0x20]) := by
  have hhead : (skip a ++ 0x20 :: r).head? = (skip a ++ [0x20]).head? := by
    obtain ⟨b, bs, hcons⟩ := List.exists_cons_of_ne_nil h
    rw [hcons]
    rfl
  have htake : (skip a ++ 0x20 :: r).takeWhile (!endsName ·) =
      (skip a ++ [0x20]).takeWhile (!endsName ·) := by
    rw [List.takeWhile_append, List.takeWhile_append]
    rfl
  have hany : ∀ r : Bytes, (skip a ++ 0x20 :: r).any endsName = true := fun r =>
    List.any_eq_true.mpr ⟨0x20, by simp, rfl⟩
  rw [nameOf, nameOf, skip_append h, skip_append h, hhead, htake, hany, hany]

theorem nameOf_blank {a : Bytes} (h : skip a = []) (r : Bytes) :
    nameOf (a ++ 0x20 :: r) = nameOf r := by
  have hskip : skip (a ++ 0x20 :: r) = skip r := skip_eq_nil h _
  rw [nameOf, nameOf, hskip]

theorem nameOf_append_space {l name : Bytes} (h : nameOf l = some name) :
    nameOf (l ++ [0x20]) = some name := by
  unfold nameOf at h
  split at h
  · rename_i hcond
    obtain ⟨b, hb, hends⟩ := List.any_eq_true.mp hcond.2
    have hne : skip l ≠ [] := List.ne_nil_of_mem hb
    have hhead : (skip l ++ [0x20]).head? = (skip l).head? := by
      obtain ⟨c, cs, hcons⟩ := List.exists_cons_of_ne_nil hne
      rw [hcons]
      rfl
    have hany : (skip l ++ [0x20]).any endsName = true :=
      List.any_eq_true.mpr ⟨b, List.mem_append_left _ hb, hends⟩
    have hshort : ((skip l).takeWhile (!endsName ·)).length ≠ (skip l).length := by
      intro hlen
      have hall := List.takeWhile_eq_self_iff.mp ((List.takeWhile_prefix _).eq_of_length hlen) b hb
      rw [hends] at hall
      cases hall
    rw [nameOf, skip_append hne, hhead, if_pos ⟨hcond.1, hany⟩, List.takeWhile_append,
      if_neg hshort]
    exact h
  · cases h

/-- A token without a blank, a tab or a brace. -/
def Word (w : Bytes) : Prop := ∀ b ∈ w, endsName b = false

/-- A metric name as it can stand at the start of a line. -/
def Plain (name : Bytes) : Prop :=
  name ≠ [] ∧ Word name ∧ 0x0A ∉ name ∧ name.head? ≠ some 0x23

instance (w : Bytes) : Decidable (Word w) := inferInstanceAs (Decidable (∀ b ∈ w, _ = false))

instance (name : Bytes) : Decidable (Plain name) :=
  inferInstanceAs (Decidable (name ≠ [] ∧ Word name ∧ 0x0A ∉ name ∧ name.head? ≠ some 0x23))

theorem Word.not_blank {w : Bytes} (h : Word w) {b : UInt8} (hb : b ∈ w) : isBlank b = false :=
  (Bool.or_eq_false_iff.mp (h b hb)).1

theorem skip_word {w : Bytes} (h : Word w) : skip w = w := by
  cases w with
  | nil => rfl
  | cons b bs => exact skip_cons (h.not_blank (List.mem_cons_self ..)) bs

/-- Without a blank, a tab or a brace there is no name that ends. -/
theorem nameOf_word {w : Bytes} (h : Word w) : nameOf w = none := by
  refine if_neg fun hname => ?_
  obtain ⟨b, hb, hends⟩ := List.any_eq_true.mp hname.2
  rw [skip_word h] at hb
  rw [h b hb] at hends
  cases hends

theorem skip_plain {name : Bytes} (h : Plain name) (rest : Bytes) :
    skip (name ++ rest) = name ++ rest := by
  have hname := skip_word h.2.1
  rw [skip_append (by rw [hname]; exact h.1), hname]

theorem Plain.append {name w : Bytes} (h : Plain name) (hw : Word w) (hline : 0x0A ∉ w) :
    Plain (name ++ w) := by
  obtain ⟨hne, hword, hlf, hhead⟩ := h
  obtain ⟨b, bs, rfl⟩ := List.exists_cons_of_ne_nil hne
  refine ⟨List.append_ne_nil_of_left_ne_nil hne _, fun c hc => ?_, by simp_all, hhead⟩
  rcases List.mem_append.mp hc with hc | hc
  · exact hword c hc
  · exact hw c hc

theorem nameOf_line {name : Bytes} (h : Plain name) {b : UInt8} (hb : endsName b = true)
    (rest : Bytes) : nameOf (name ++ b :: rest) = some name := by
  have hhead : (name ++ b :: rest).head? ≠ some 0x23 := by
    obtain ⟨c, cs, rfl⟩ := List.exists_cons_of_ne_nil h.1
    exact h.2.2.2
  have hany : (name ++ b :: rest).any endsName = true :=
    List.any_eq_true.mpr ⟨b, by simp, hb⟩
  rw [nameOf, skip_plain h, if_pos ⟨hhead, hany⟩,
    List.takeWhile_append_of_pos fun c hc => by rw [h.2.1 c hc]; rfl,
    List.takeWhile_cons_of_neg (by simp [hb]), List.append_nil]

theorem takeWhile_word {w : Bytes} (h : Word w) : w.takeWhile (!isBlank ·) = w :=
  List.takeWhile_eq_self_iff.mpr fun _ hb => by rw [h.not_blank hb]; rfl

theorem sample_line {name value : Bytes} (hname : Plain name) (hvalue : Word value) :
    sample (name ++ 0x20 :: value) = some ⟨name, some [], value⟩ := by
  have hskip : skip (0x20 :: value) = value := skip_word hvalue
  have hlabels : readLabels (0x20 :: value) = some ([], 0x20 :: value) := by
    have hnone : expect 0x7B (0x20 :: value) = none := by
      rw [expect, hskip]
      cases value with
      | nil => rfl
      | cons b bs =>
        refine if_neg fun hb => ?_
        have hends := hvalue b (List.mem_cons_self ..)
        rw [hb] at hends
        exact absurd hends (by decide)
    rw [readLabels, hnone]
  rw [sample, nameOf_line hname rfl, Option.map_some, sampleOf, skip_plain hname,
    List.drop_left, hlabels]
  simp only [hskip, takeWhile_word hvalue]

/-! ### Labels -/

/-- A value without quotes and escapes is read up to its closing quote. -/
theorem readQuoted_closed {value : Bytes} (hquote : 0x22 ∉ value) (hescape : 0x5C ∉ value)
    (rest : Bytes) : readQuoted false (value ++ 0x22 :: rest) = some (value, rest) := by
  induction value with
  | nil => rfl
  | cons b bs ih =>
    obtain ⟨hb, hquote⟩ : 0x22 ≠ b ∧ 0x22 ∉ bs := by simpa using hquote
    obtain ⟨hb', hescape⟩ : 0x5C ≠ b ∧ 0x5C ∉ bs := by simpa using hescape
    rw [List.cons_append, readQuoted, if_neg hb.symm, if_neg hb'.symm, ih hquote hescape]
    rfl

theorem expect_self {b : UInt8} (hb : isBlank b = false) (rest : Bytes) :
    expect b (b :: rest) = some rest := by
  rw [expect_cons hb, if_pos rfl]

theorem readPairs_one {key value : Bytes} (hne : key ≠ [])
    (hkey : ∀ b ∈ key, isBlank b = false ∧ b ≠ 0x3D ∧ b ≠ 0x7D) (hquote : 0x22 ∉ value)
    (hescape : 0x5C ∉ value) (fuel : ℕ) (rest : Bytes) :
    readPairs (fuel + 1) (key ++ 0x3D :: 0x22 :: (value ++ 0x22 :: 0x7D :: rest)) =
      some ([(key, value)], rest) := by
  obtain ⟨b, bs, rfl⟩ := List.exists_cons_of_ne_nil hne
  obtain ⟨hblank, -, hbrace⟩ := hkey b (List.mem_cons_self ..)
  have htake : (b :: bs ++ 0x3D :: 0x22 :: (value ++ 0x22 :: 0x7D :: rest)).takeWhile
      (fun b => !(isBlank b || b = 0x3D)) = b :: bs := by
    rw [List.takeWhile_append_of_pos fun c hc => by
        obtain ⟨hc, hequal, -⟩ := hkey c hc
        simp [hc, hequal],
      List.takeWhile_cons_of_neg (by decide), List.append_nil]
  have hskip : skip (b :: bs ++ 0x3D :: 0x22 :: (value ++ 0x22 :: 0x7D :: rest)) =
      b :: bs ++ 0x3D :: 0x22 :: (value ++ 0x22 :: 0x7D :: rest) := skip_cons hblank _
  have hopen : expect 0x7D (b :: bs ++ 0x3D :: 0x22 :: (value ++ 0x22 :: 0x7D :: rest)) = none := by
    rw [List.cons_append, expect_cons hblank, if_neg hbrace]
  have hcomma : expect 0x2C (0x7D :: rest) = none := by
    rw [expect_cons (by decide)]
    rfl
  rw [readPairs, hopen]
  simp only [hskip, htake, List.drop_left, expect_self (b := 0x3D) (by decide),
    expect_self (b := 0x22) (by decide), readQuoted_closed hquote hescape, Option.bind_eq_bind,
    Option.bind_some, hcomma, expect_self (b := 0x7D) (by decide)]
  rfl

/-- A line with one label. -/
theorem sample_labelled {name key text value : Bytes} (hname : Plain name) (hne : key ≠ [])
    (hkey : ∀ b ∈ key, isBlank b = false ∧ b ≠ 0x3D ∧ b ≠ 0x7D) (hquote : 0x22 ∉ text)
    (hescape : 0x5C ∉ text) (hvalue : Word value) :
    sample (name ++ 0x7B :: (key ++ 0x3D :: 0x22 :: (text ++ 0x22 :: 0x7D :: 0x20 :: value))) =
      some ⟨name, some [(key, text)], value⟩ := by
  have hskip : skip (0x20 :: value) = value := skip_word hvalue
  rw [sample, nameOf_line hname rfl, Option.map_some, sampleOf, skip_plain hname,
    List.drop_left, readLabels, expect_self (by decide)]
  simp only [readPairs_one hne hkey hquote hescape, hskip, takeWhile_word hvalue]

theorem samples_of_line {l : Bytes} (h : 0x0A ∉ l) : samples l = (sample l).toList := by
  rw [samples, lines_line h, List.filterMap_cons]
  cases sample l <;> rfl

theorem samples_comment {l : Bytes} (h : 0x0A ∉ l) : samples (0x23 :: l) = [] := by
  have hline : 0x0A ∉ 0x23 :: l := by simp [h]
  rw [samples_of_line hline, sample, nameOf_comment]
  rfl

/-- The metrics of the samples are the names that the lines start with. -/
theorem map_metric (ls : List Bytes) :
    (ls.filterMap sample).map Sample.metric = ls.filterMap nameOf := by
  rw [List.map_filterMap]
  refine congrArg (List.filterMap · ls) (funext fun l => ?_)
  rw [sample, Option.map_map, Function.comp_def]
  simp only [sampleOf_metric, Option.map_id']

/-! ### Names that hold line feeds

A writer that puts an arbitrary name before a space writes the first line of the
name as a sample, and every later line of it as a line of its own.
-/

def laterNames (text : Bytes) : List Bytes := (later text).filterMap nameOf

def laterSamples (text : Bytes) : List Sample := (later text).filterMap sample

theorem names_split (text : Bytes) :
    names text = (nameOf (firstLine text)).toList ++ laterNames text := by
  rw [names, lines_eq, List.filterMap_cons]
  cases nameOf (firstLine text) with
  | none => rfl
  | some name => rfl

theorem samples_split (text : Bytes) :
    samples text = (sample (firstLine text)).toList ++ laterSamples text := by
  rw [samples, lines_eq, List.filterMap_cons]
  cases sample (firstLine text) with
  | none => rfl
  | some s => rfl

theorem map_metric_samples (text : Bytes) : (samples text).map Sample.metric = names text :=
  map_metric _

theorem map_metric_laterSamples (text : Bytes) :
    (laterSamples text).map Sample.metric = laterNames text := map_metric _

theorem laterNames_line {l : Bytes} (h : 0x0A ∉ l) : laterNames l = [] := by
  rw [laterNames, later_line h, List.filterMap_nil]

theorem laterNames_cons {l : Bytes} (h : 0x0A ∉ l) (rest : Bytes) :
    laterNames (l ++ 0x0A :: rest) = names rest := by
  rw [laterNames, later_cons h, names]

theorem laterNames_prepend {p : Bytes} (hp : 0x0A ∉ p) (text : Bytes) :
    laterNames (p ++ text) = laterNames text := by
  rw [laterNames, later_prepend hp, laterNames]

section Space

variable {r name : Bytes}

/-- After a text and a blank the first line of what follows is a name only of a
text that ends in blanks. -/
theorem count_names_space (hr : nameOf (firstLine r) ≠ some name) (a : Bytes) :
    (names (a ++ 0x20 :: r)).count name =
      (names (a ++ [0x20])).count name + (laterNames r).count name := by
  induction a using text_induction with
  | line l h =>
    have hline : 0x0A ∉ l ++ [0x20] := by simp [h]
    have hsplit : l ++ 0x20 :: r = (l ++ [0x20]) ++ r := by simp
    have hone : (nameOf (l ++ 0x20 :: firstLine r)).toList.count name =
        (nameOf (l ++ [0x20])).toList.count name := by
      by_cases hskip : skip l = []
      · rw [nameOf_blank hskip, nameOf_blank hskip]
        cases hfirst : nameOf (firstLine r) with
        | none => rfl
        | some name' =>
          have hne : name' ≠ name := fun h => hr (by rw [hfirst, h])
          exact List.count_eq_zero.mpr (by simpa using hne.symm)
      · rw [nameOf_space hskip]
    rw [hsplit, names_split, firstLine_prepend hline, laterNames_prepend hline, names_split,
      firstLine_line hline, laterNames_line hline, List.append_nil, List.count_append,
      List.append_assoc]
    exact congrArg (· + _) hone
  | more l rest h ih =>
    rw [List.append_assoc, List.append_assoc, List.cons_append, List.cons_append, names_split,
      names_split (l ++ 0x0A :: (rest ++ [0x20])), firstLine_cons h, firstLine_cons h,
      laterNames_cons h, laterNames_cons h, List.count_append, List.count_append, ih,
      Nat.add_assoc]

theorem count_laterNames_space (hr : nameOf (firstLine r) ≠ some name) (a : Bytes) :
    (laterNames (a ++ 0x20 :: r)).count name =
      (laterNames (a ++ [0x20])).count name + (laterNames r).count name := by
  induction a using text_induction with
  | line l h =>
    have hline : 0x0A ∉ l ++ [0x20] := by simp [h]
    have hsplit : l ++ 0x20 :: r = (l ++ [0x20]) ++ r := by simp
    rw [hsplit, laterNames_prepend hline, laterNames_line hline, List.count_nil, Nat.zero_add]
  | more l rest h =>
    rw [List.append_assoc, List.append_assoc, List.cons_append, List.cons_append,
      laterNames_cons h, laterNames_cons h]
    exact count_names_space hr rest

end Space

theorem names_append_space (text : Bytes) : names text ⊆ names (text ++ [0x20]) := by
  induction text using text_induction with
  | line l h =>
    have hline : 0x0A ∉ l ++ [0x20] := by simp [h]
    intro name hname
    rw [names, lines_line h] at hname
    rw [names, lines_line hline]
    obtain ⟨l', hl', hs⟩ := List.mem_filterMap.mp hname
    rw [List.mem_singleton.mp hl'] at hs
    exact List.mem_filterMap.mpr ⟨_, List.mem_singleton_self _, nameOf_append_space hs⟩
  | more l rest h ih =>
    rw [List.append_assoc, List.cons_append, names_split, names_split, laterNames_cons h,
      laterNames_cons h, firstLine_cons h, firstLine_cons h]
    exact List.append_subset.mpr
      ⟨List.subset_append_left .., fun x hx => List.mem_append_right _ (ih hx)⟩

theorem laterNames_append_space (text : Bytes) :
    laterNames text ⊆ laterNames (text ++ [0x20]) := by
  induction text using text_induction with
  | line l h =>
    rw [laterNames_line h]
    exact List.nil_subset _
  | more l rest h ih =>
    rw [List.append_assoc, List.cons_append, laterNames_cons h, laterNames_cons h]
    exact names_append_space rest

section Map

/-- A change of bytes that moves no byte that a line is cut at. -/
structure Keeps (f : UInt8 → UInt8) : Prop where
  lineFeed : ∀ b, f b = 0x0A ↔ b = 0x0A
  blank : ∀ b, isBlank (f b) = isBlank b
  brace : ∀ b, endsName (f b) = endsName b
  hash : ∀ b, f b = 0x23 ↔ b = 0x23

variable {f : UInt8 → UInt8}

theorem Keeps.lines_map (hf : Keeps f) (text : Bytes) :
    lines (text.map f) = (lines text).map (List.map f) := by
  have hline : ∀ l : Bytes, 0x0A ∉ l → 0x0A ∉ l.map f := by
    intro l h hmem
    obtain ⟨b, hb, hfb⟩ := List.mem_map.mp hmem
    exact h ((hf.lineFeed b).mp hfb ▸ hb)
  induction text using text_induction with
  | line l h => rw [lines_line h, lines_line (hline l h), List.map_singleton]
  | more l rest h ih =>
    rw [List.map_append, List.map_cons, (hf.lineFeed 0x0A).mpr rfl, lines_cons (hline l h), ih,
      lines_cons h, List.map_cons]

theorem Keeps.nameOf_map (hf : Keeps f) (l : Bytes) :
    nameOf (l.map f) = (nameOf l).map (List.map f) := by
  have hskip : skip (l.map f) = (skip l).map f := by
    rw [skip, skip, List.dropWhile_map]
    exact congrArg (fun p => (l.dropWhile p).map f) (funext hf.blank)
  have hhead : ((skip l).map f).head? = some 0x23 ↔ (skip l).head? = some 0x23 := by
    rw [List.head?_map, Option.map_eq_some_iff]
    simp [hf.hash]
  have hany : ((skip l).map f).any endsName = (skip l).any endsName := by
    rw [List.any_map]
    exact congrArg (skip l).any (funext hf.brace)
  have htake : ((skip l).map f).takeWhile (!endsName ·) =
      ((skip l).takeWhile (!endsName ·)).map f := by
    rw [List.takeWhile_map]
    refine congrArg (fun p => ((skip l).takeWhile p).map f) (funext fun b => ?_)
    exact congrArg (!·) (hf.brace b)
  rw [nameOf, nameOf, hskip, htake, hany]
  by_cases hcond : (skip l).head? ≠ some 0x23 ∧ (skip l).any endsName = true
  · rw [if_pos hcond, if_pos ⟨fun h => hcond.1 (hhead.mp h), hcond.2⟩, Option.map_some]
  · rw [if_neg hcond, if_neg fun h => hcond ⟨fun h' => h.1 (hhead.mpr h'), h.2⟩, Option.map_none]

theorem Keeps.laterNames_map (hf : Keeps f) (text : Bytes) :
    laterNames (text.map f) = (laterNames text).map (List.map f) := by
  rw [laterNames, laterNames, later, later, hf.lines_map, ← List.map_tail, List.filterMap_map,
    List.map_filterMap]
  exact congrArg (List.filterMap · (lines text).tail) (funext hf.nameOf_map)

end Map

/-! ### Values -/

section Values

variable {κ : Type} [DecidableEq κ] {key : Sample → κ} {ss : List Sample} {k : κ}

theorem length_valuesOf [BEq κ] [LawfulBEq κ] (key : Sample → κ) (ss : List Sample) (k : κ) :
    (valuesOf key ss k).length = (ss.map key).count k := by
  induction ss with
  | nil => rfl
  | cons s ss ih =>
    rw [valuesOf] at ih ⊢
    rw [List.filterMap_cons, List.map_cons, List.count_cons]
    by_cases h : key s = k
    · simp [h, ih]
    · simp [h, ih]

theorem valuesOf_append (ss ts : List Sample) (k : κ) :
    valuesOf key (ss ++ ts) k = valuesOf key ss k ++ valuesOf key ts k :=
  List.filterMap_append ..

theorem valuesOf_flatMap {α : Type} (xs : List α) (f : α → List Sample) (k : κ) :
    valuesOf key (xs.flatMap f) k = xs.flatMap fun x => valuesOf key (f x) k := by
  induction xs with
  | nil => rfl
  | cons x xs ih => rw [List.flatMap_cons, List.flatMap_cons, valuesOf_append, ih]

theorem valuesOf_eq_nil : valuesOf key ss k = [] ↔ k ∉ ss.map key := by
  rw [← List.length_eq_zero_iff, length_valuesOf, List.count_eq_zero]

/-- Samples with different keys have one value each. -/
theorem valuesOf_nodup (hnodup : (ss.map key).Nodup) {s : Sample} (hs : s ∈ ss) :
    valuesOf key ss (key s) = [s.value] := by
  induction ss with
  | nil => cases hs
  | cons t ts ih =>
    rw [List.map_cons, List.nodup_cons] at hnodup
    have hcons : valuesOf key (t :: ts) (key s) =
        valuesOf key [t] (key s) ++ valuesOf key ts (key s) := valuesOf_append [t] ts (key s)
    rcases List.mem_cons.mp hs with rfl | hts
    · rw [hcons, valuesOf_eq_nil.mpr hnodup.1]
      simp [valuesOf]
    · have hne : key t ≠ key s := fun heq => hnodup.1 (heq ▸ List.mem_map_of_mem hts)
      rw [hcons, ih hnodup.2 hts]
      simp [valuesOf, hne]

theorem length_flatMap_le_one {α β : Type} (f : α → List β) (xs : List α) :
    (xs.flatMap f).length ≤ 1 ↔
      (∀ x ∈ xs, (f x).length ≤ 1) ∧ xs.Pairwise fun x y => f x = [] ∨ f y = [] := by
  induction xs with
  | nil => simp
  | cons x xs ih =>
    have hsplit : (f x).length + (xs.flatMap f).length ≤ 1 ↔
        (f x).length ≤ 1 ∧ (xs.flatMap f).length ≤ 1 ∧ (f x = [] ∨ xs.flatMap f = []) := by
      rw [← List.length_eq_zero_iff, ← List.length_eq_zero_iff]
      omega
    have hempty : (∀ y ∈ xs, f x = [] ∨ f y = []) ↔ f x = [] ∨ xs.flatMap f = [] := by
      rw [List.flatMap_eq_nil_iff]
      by_cases h : f x = []
      · simp [h]
      · simp [h]
    rw [List.flatMap_cons, List.length_append, hsplit, ih, List.forall_mem_cons,
      List.pairwise_cons, hempty]
    tauto

/-- Parts that differ give at most one item together when each gives at most one
and only one of them gives any. -/
theorem length_flatMap_le_one_of_nodup {α β : Type} {f : α → List β} {xs : List α}
    (hnodup : xs.Nodup) :
    (xs.flatMap f).length ≤ 1 ↔ (∀ x ∈ xs, (f x).length ≤ 1) ∧
      ∀ x ∈ xs, ∀ y ∈ xs, f x ≠ [] → f y ≠ [] → x = y := by
  rw [length_flatMap_le_one]
  refine and_congr_right fun _ => ⟨fun h x hx y hy hfx hfy => ?_, fun h => ?_⟩
  · have hsymm : Std.Symm fun x y => f x = [] ∨ f y = [] := ⟨fun _ _ hor => hor.symm⟩
    by_contra hne
    rcases h.forall hx hy hne with hnil | hnil
    · exact hfx hnil
    · exact hfy hnil
  · refine hnodup.pairwise_of_forall_ne fun x hx y hy hne => ?_
    by_contra hor
    rw [not_or] at hor
    exact hne (h x hx y hy hor.1 hor.2)

end Values

end Exposition
