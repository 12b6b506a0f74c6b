import FireRedis.Base.HttpMessage
import FireRedis.Http.Page

/-!
# Routes (http.rs)

`serve` reads once from a connection, takes the path from what it has read, and
answers with one of three pages or with 404. The method and the rest of the
request are not looked at.
-/

namespace FireRedis.Http
open Str Decimal HttpMessage

def notFoundStatus : Bytes := utf8 "HTTP/1.1 404 Not Found\r\n"

def notFound (body : Bytes) : Bytes :=
  notFoundStatus ++ contentLen body.length ++ responseHeaders (utf8 "text/plain") ++ body

def rootBody : Bytes :=
  utf8 ("<!DOCTYPE html>\n<html>\n<head><title>Fire-Redis Metrics</title></head>\n<body>\n" ++
    "<h1>Fire-Redis</h1>\n<ul>\n" ++
    "  <li><a href=\"/health\">/health</a> – JSON health check</li>\n" ++
    "  <li><a href=\"/metrics\">/metrics</a> – Prometheus metrics</li>\n" ++
    "</ul>\n</body>\n</html>")

def handleRoot : Bytes := okResponse (utf8 "text/html") rootBody

def healthBody (s : MetricsSnapshot) : Bytes :=
  utf8 "\x7b\"status\":\"ok\",\"uptime_seconds\":" ++ displayU64 s.uptimeSeconds ++
    utf8 ",\"active_connections\":" ++ displayI64 s.activeConnections ++
    utf8 ",\"total_commands\":" ++ displayU64 s.totalCommands ++
    utf8 ",\"total_keys\":" ++ displayI64 s.totalKeys ++ utf8 "\x7d"

def handleHealth (m : Metrics) (ord : CountOrder) (uptimeSeconds : UInt64) : Bytes :=
  okResponse (utf8 "application/json") (healthBody (m.snapshot ord uptimeSeconds))

/-! ### The request line -/

/-- The first line, without its line ending. -/
def nextLine (s : Bytes) : Option Bytes :=
  if s = [] then none
  else
    let line := s.takeWhile (· ≠ 0x0A)
    -- A carriage return ends the line only together with a line feed.
    some (if line.length < s.length ∧ line.getLast? = some 0x0D then line.dropLast else line)

/-- The encodings of the characters with the property White_Space. -/
def whitespace : List Bytes :=
  [[0x09], [0x0A], [0x0B], [0x0C], [0x0D], [0x20], [0xC2, 0x85], [0xC2, 0xA0],
    [0xE1, 0x9A, 0x80], [0xE2, 0x80, 0x80], [0xE2, 0x80, 0x81], [0xE2, 0x80, 0x82],
    [0xE2, 0x80, 0x83], [0xE2, 0x80, 0x84], [0xE2, 0x80, 0x85], [0xE2, 0x80, 0x86],
    [0xE2, 0x80, 0x87], [0xE2, 0x80, 0x88], [0xE2, 0x80, 0x89], [0xE2, 0x80, 0x8A],
    [0xE2, 0x80, 0xA8], [0xE2, 0x80, 0xA9], [0xE2, 0x80, 0xAF], [0xE2, 0x81, 0x9F],
    [0xE3, 0x80, 0x80]]

def chars (s : Bytes) : List Bytes := (Utf8.chunks s).map Prod.snd

def splitWhitespace (s : Bytes) : List Bytes :=
  (((chars s).splitOnP fun c => decide (c ∈ whitespace)).filter fun word => !word.isEmpty).map
    List.flatten

def parsePath (buf : Bytes) : Option Bytes :=
  (fromUtf8 buf).bind fun s =>
    (nextLine s.bytes).bind fun line => (splitWhitespace line)[1]?

def response (m : Metrics) (ord : CountOrder) (uptimeSeconds : UInt64) (path : Bytes) : Bytes :=
  if path = utf8 "/" then handleRoot
  else if path = utf8 "/health" then handleHealth m ord uptimeSeconds
  else if path = utf8 "/metrics" then handleMetrics m ord uptimeSeconds
  else notFound (utf8 "Not Found")

/-- What is written back after one read; nothing when nothing was read. -/
def serve (m : Metrics) (ord : CountOrder) (uptimeSeconds : UInt64) (buf : Bytes) :
    Option Bytes :=
  if buf = [] then none else some (response m ord uptimeSeconds ((parsePath buf).getD []))

/-! ### Responses are messages -/

def pageMessage (startLine contentType body : Bytes) : Message where
  startLine := startLine
  fields := [(utf8 "Content-Length", decimal body.length), (utf8 "Content-Type", contentType),
    (utf8 "Connection", utf8 "close")]
  body := body

/-- The message that answers a path. -/
def answer (m : Metrics) (ord : CountOrder) (uptimeSeconds : UInt64) (path : Bytes) : Message :=
  if path = utf8 "/" then pageMessage (utf8 "HTTP/1.1 200 OK") (utf8 "text/html") rootBody
  else if path = utf8 "/health" then
    pageMessage (utf8 "HTTP/1.1 200 OK") (utf8 "application/json")
      (healthBody (m.snapshot ord uptimeSeconds))
  else if path = utf8 "/metrics" then
    pageMessage (utf8 "HTTP/1.1 200 OK") (utf8 "text/plain; version=0.0.4")
      (metricsText (m.snapshot ord uptimeSeconds))
  else pageMessage (utf8 "HTTP/1.1 404 Not Found") (utf8 "text/plain") (utf8 "Not Found")

theorem wellFormed_pageMessage {startLine contentType : Bytes} (hstart : 0x0D ∉ startLine)
    (htype : 0x0D ∉ contentType) (body : Bytes) :
    (pageMessage startLine contentType body).WellFormed where
  startLine := hstart
  names := by
    simp only [pageMessage, List.forall_mem_cons, List.not_mem_nil, false_imp_iff, implies_true,
      and_true]
    decide
  values := by
    simp only [pageMessage, List.forall_mem_cons, List.not_mem_nil, false_imp_iff, implies_true,
      and_true]
    exact ⟨digits_plain (by decide) _, htype, by decide⟩
  length := by
    have hname : utf8 "Content-Length" = lengthName := by decide
    rw [pageMessage, contentLength, hname, List.find?_cons_of_pos (by simp), Option.bind_some]
    exact parseNat_decimal _

theorem render_pageMessage (startLine contentType body : Bytes) :
    (pageMessage startLine contentType body).render =
      startLine ++ utf8 "\r\n" ++ contentLen body.length ++ responseHeaders contentType ++
        body := by
  have hcrlf : utf8 "\r\n" = HttpMessage.crlf := by decide
  have hlength : utf8 "Content-Length: " = utf8 "Content-Length" ++ [0x3A, 0x20] := by decide
  have htype : utf8 "Content-Type: " = utf8 "Content-Type" ++ [0x3A, 0x20] := by decide
  have hclose : utf8 "\r\nConnection: close\r\n\r\n" = HttpMessage.crlf ++
      (utf8 "Connection" ++ [0x3A, 0x20]) ++ utf8 "close" ++ HttpMessage.crlf ++
        HttpMessage.crlf := by
    decide
  rw [contentLen, responseHeaders, hcrlf, hlength, htype, hclose]
  simp only [pageMessage, Message.render, List.flatMap_cons, List.flatMap_nil, renderField,
    List.append_assoc, List.cons_append, List.nil_append, List.append_nil]

theorem okResponse_eq (contentType body : Bytes) :
    okResponse contentType body =
      (pageMessage (utf8 "HTTP/1.1 200 OK") contentType body).render := by
  have hok : ok = utf8 "HTTP/1.1 200 OK" ++ utf8 "\r\n" := by decide
  rw [okResponse, hok, render_pageMessage]

theorem notFound_eq (body : Bytes) :
    notFound body =
      (pageMessage (utf8 "HTTP/1.1 404 Not Found") (utf8 "text/plain") body).render := by
  have hstatus : notFoundStatus = utf8 "HTTP/1.1 404 Not Found" ++ utf8 "\r\n" := by decide
  rw [notFound, hstatus, render_pageMessage]

section Serve

variable (m : Metrics) (ord : CountOrder) (uptimeSeconds : UInt64)

theorem response_eq (path : Bytes) :
    response m ord uptimeSeconds path = (answer m ord uptimeSeconds path).render := by
  rw [response, answer, handleRoot, handleHealth, handleMetrics, notFound_eq, okResponse_eq,
    okResponse_eq, okResponse_eq]
  simp only [apply_ite Message.render]

theorem wellFormed_answer (path : Bytes) : (answer m ord uptimeSeconds path).WellFormed := by
  unfold answer
  split
  · exact wellFormed_pageMessage (by decide) (by decide) _
  · split
    · exact wellFormed_pageMessage (by decide) (by decide) _
    · split
      · exact wellFormed_pageMessage (by decide) (by decide) _
      · exact wellFormed_pageMessage (by decide) (by decide) _

end Serve

/-! ### The path of a request -/

/-- Bytes of ASCII characters other than white space. -/
def Graphic (bs : Bytes) : Prop := ∀ b ∈ bs, 0x20 < b ∧ b < 0x80

instance (bs : Bytes) : Decidable (Graphic bs) :=
  inferInstanceAs (Decidable (∀ b ∈ bs, 0x20 < b ∧ b < 0x80))

section Words

variable {a : Bytes}

theorem chars_ascii (h : ∀ b ∈ a, b < 0x80) (rest : Bytes) :
    chars (a ++ rest) = a.map (fun b => [b]) ++ chars rest := by
  induction a with
  | nil => rfl
  | cons b a ih =>
    rw [List.forall_mem_cons] at h
    rw [List.cons_append, chars, Utf8.chunks_cons, Utf8.chunk_ascii _ h.1, List.map_cons,
      List.drop_zero, List.take_zero, ← chars, ih h.2]
    rfl

theorem notMem_whitespace {b : UInt8} (h : 0x20 < b) : [b] ∉ whitespace := by
  simp only [whitespace, List.mem_cons, List.cons.injEq, and_true, List.not_mem_nil, or_false]
  intro hb
  rcases hb with rfl | rfl | rfl | rfl | rfl | rfl | hb
  all_goals first | exact absurd h (by decide) | simp at hb

theorem word_graphic (h : Graphic a) :
    ∀ c ∈ a.map (fun b => [b]), decide (c ∈ whitespace) = false := by
  intro c hc
  obtain ⟨b, hb, rfl⟩ := List.mem_map.mp hc
  exact decide_eq_false (notMem_whitespace (h b hb).1)

theorem flatten_map_singleton (a : Bytes) : (a.map fun b => [b]).flatten = a := by
  induction a with
  | nil => rfl
  | cons b a ih => rw [List.map_cons, List.flatten_cons, ih]; rfl

theorem splitWhitespace_graphic (h : Graphic a) (hne : a ≠ []) : splitWhitespace a = [a] := by
  have hchars := chars_ascii (fun b hb => (h b hb).2) []
  have hnil : chars [] = [] := rfl
  rw [List.append_nil, hnil, List.append_nil] at hchars
  rw [splitWhitespace, hchars, List.splitOnP_eq_singleton (word_graphic h),
    List.filter_cons_of_pos (by simp [hne]), List.filter_nil, List.map_singleton,
    flatten_map_singleton]

theorem splitWhitespace_cons (h : Graphic a) (hne : a ≠ []) (rest : Bytes) :
    splitWhitespace (a ++ 0x20 :: rest) = a :: splitWhitespace rest := by
  have hspace : chars (0x20 :: rest) = [0x20] :: chars rest :=
    chars_ascii (a := [0x20]) (List.forall_mem_singleton.mpr (by decide)) rest
  rw [splitWhitespace, chars_ascii (fun b hb => (h b hb).2), hspace,
    List.splitOnP_append_cons_of_forall_mem (word_graphic h) _ (by decide),
    List.filter_cons_of_pos (by simp [hne]), List.map_cons, flatten_map_singleton,
    ← splitWhitespace]

theorem nextLine_line (h : 0x0A ∉ a) (hne : a ≠ []) : nextLine a = some a := by
  have hall : ∀ b ∈ a, decide (b ≠ 0x0A) = true := by
    intro b hb
    rw [decide_eq_true_eq]
    rintro rfl
    exact h hb
  rw [nextLine, if_neg hne, List.takeWhile_eq_self_iff.mpr hall]
  simp

/-- A space in a line stays, with what stands before it. -/
theorem nextLine_space (h : 0x0A ∉ a) (rest : Bytes) :
    ∃ rest', nextLine (a ++ 0x20 :: rest) = some (a ++ 0x20 :: rest') := by
  have hall : ∀ b ∈ a, decide (b ≠ 0x0A) = true := by
    intro b hb
    rw [decide_eq_true_eq]
    rintro rfl
    exact h hb
  have hline : (a ++ 0x20 :: rest).takeWhile (fun b => decide (b ≠ 0x0A)) =
      a ++ 0x20 :: rest.takeWhile (fun b => decide (b ≠ 0x0A)) := by
    rw [List.takeWhile_append_of_pos hall, List.takeWhile_cons_of_pos (by decide)]
  rw [nextLine, if_neg (by simp), hline]
  cases hrest : rest.takeWhile (fun b => decide (b ≠ 0x0A)) with
  | nil => exact ⟨[], by simp⟩
  | cons b line =>
    have hdrop : (a ++ 0x20 :: b :: line).dropLast = a ++ 0x20 :: (b :: line).dropLast := by
      rw [List.dropLast_append_of_ne_nil (by simp), List.dropLast_cons_of_ne_nil (by simp)]
    dsimp only
    split
    · exact ⟨_, congrArg some hdrop⟩
    · exact ⟨_, rfl⟩

theorem linefeed_graphic (h : Graphic a) : 0x0A ∉ a := fun hb => absurd (h _ hb).1 (by decide)

theorem graphic_take (h : Graphic a) (k : ℕ) : Graphic (a.take k) :=
  fun b hb => h b (List.mem_of_mem_take hb)

end Words

section Path

variable {method target : Bytes}

def lineWord (s : Bytes) : Option Bytes := (nextLine s).bind fun line => (splitWhitespace line)[1]?

/-- A read that ends within the method has no path. -/
theorem lineWord_method (hmethod : Graphic method) : (lineWord method).getD [] = [] := by
  by_cases hne : method = []
  · rw [hne]
    rfl
  · rw [lineWord, nextLine_line (linefeed_graphic hmethod) hne, Option.bind_some,
      splitWhitespace_graphic hmethod hne]
    rfl

/-- A read that ends within the target has what was read of it. -/
theorem lineWord_target (hmethod : Graphic method) (hne : method ≠ []) (htarget : Graphic target) :
    (lineWord (method ++ 0x20 :: target)).getD [] = target := by
  have hline : 0x0A ∉ method ++ 0x20 :: target := by
    simp [linefeed_graphic hmethod, linefeed_graphic htarget]
  rw [lineWord, nextLine_line hline (by simp), Option.bind_some,
    splitWhitespace_cons hmethod hne]
  by_cases htne : target = []
  · rw [htne]
    rfl
  · rw [splitWhitespace_graphic htarget htne]
    rfl

theorem lineWord_rest (hmethod : Graphic method) (hne : method ≠ []) (htarget : Graphic target)
    (htne : target ≠ []) (rest : Bytes) :
    (lineWord (method ++ 0x20 :: (target ++ 0x20 :: rest))).getD [] = target := by
  have hline : 0x0A ∉ method ++ 0x20 :: target := by
    simp [linefeed_graphic hmethod, linefeed_graphic htarget]
  obtain ⟨rest', hrest⟩ := nextLine_space hline rest
  rw [List.append_assoc, List.append_assoc] at hrest
  rw [lineWord]
  show Option.getD ((nextLine (method ++ (0x20 :: target ++ 0x20 :: rest))).bind _) [] = target
  rw [hrest, Option.bind_some]
  show ((splitWhitespace (method ++ 0x20 :: (target ++ 0x20 :: rest')))[1]?).getD [] = target
  rw [splitWhitespace_cons hmethod hne, splitWhitespace_cons htarget htne]
  rfl

/-- However much of a request is read, its path is what was read of the target. -/
theorem lineWord_take (hmethod : Graphic method) (hne : method ≠ []) (htarget : Graphic target)
    (htne : target ≠ []) (rest : Bytes) (k : ℕ) :
    (lineWord ((method ++ 0x20 :: (target ++ 0x20 :: rest)).take k)).getD [] =
      target.take (k - (method.length + 1)) := by
  by_cases hk : k ≤ method.length
  · have hzero : k - (method.length + 1) = 0 := by omega
    rw [List.take_append_of_le_length hk, hzero, List.take_zero]
    exact lineWord_method (graphic_take hmethod k)
  · obtain ⟨j, rfl⟩ : ∃ j, k = method.length + (j + 1) := ⟨k - method.length - 1, by omega⟩
    have hj : method.length + (j + 1) - (method.length + 1) = j := by omega
    rw [List.take_length_add_append, List.take_succ_cons, hj]
    by_cases hle : j ≤ target.length
    · rw [List.take_append_of_le_length hle]
      exact lineWord_target hmethod hne (graphic_take htarget j)
    · obtain ⟨i, rfl⟩ : ∃ i, j = target.length + (i + 1) := ⟨j - target.length - 1, by omega⟩
      rw [List.take_length_add_append, List.take_succ_cons,
        List.take_of_length_le (Nat.le_add_right ..)]
      exact lineWord_rest hmethod hne htarget htne _

theorem parsePath_eq (buf : Bytes) :
    parsePath buf = if Utf8.Valid buf then lineWord buf else none := by
  rw [parsePath, fromUtf8]
  split <;> rfl

end Path

end FireRedis.Http

namespace FireRedis
open HttpMessage Http

/-- Whatever is read of whatever is sent, the answer is one whole message, and
after a request it is that of as much of the target as was read, if this much of
the request is valid UTF-8: a short read can ask for another page. -/
theorem http_serves (m : Metrics) (ord : CountOrder) (uptimeSeconds : UInt64) :
    (∀ buf rest, buf ≠ [] → ∃ sent, serve m ord uptimeSeconds buf = some sent ∧
      parse (sent ++ rest) =
        some (answer m ord uptimeSeconds ((parsePath buf).getD []), rest)) ∧
    ∀ method target, Graphic method → method ≠ [] → Graphic target → target ≠ [] →
      ∀ rest k, (parsePath ((method ++ 0x20 :: (target ++ 0x20 :: rest)).take k)).getD [] =
        if Utf8.Valid ((method ++ 0x20 :: (target ++ 0x20 :: rest)).take k) then
          target.take (k - (method.length + 1))
        else [] := by
  refine ⟨fun buf rest hbuf => ?_, fun method target hmethod hne htarget htne rest k => ?_⟩
  · refine ⟨_, if_neg hbuf, ?_⟩
    rw [response_eq, parse_render (wellFormed_answer m ord uptimeSeconds _)]
  · rw [parsePath_eq]
    split
    · exact lineWord_take hmethod hne htarget htne rest k
    · rfl

/-- Five bytes of a request for the metrics are a request for the overview. -/
theorem http_serves_short (m : Metrics) : ∃ sent,
    serve m .sorted 0 ((Str.utf8 "GET /metrics HTTP/1.1\r\n").take 5) = some sent ∧
      parse sent = some (pageMessage (Str.utf8 "HTTP/1.1 200 OK") (Str.utf8 "text/html") rootBody,
        []) := by
  obtain ⟨hserves, hpath⟩ := http_serves m .sorted 0
  have hroot := hpath (Str.utf8 "GET") (Str.utf8 "/metrics") (by decide +kernel) (by decide)
    (by decide +kernel) (by decide) (Str.utf8 "HTTP/1.1\r\n") 5
  have hread : (Str.utf8 "GET /metrics HTTP/1.1\r\n").take 5 = Str.utf8 "GET /" := by decide
  have htarget : (Str.utf8 "/metrics").take 1 = Str.utf8 "/" := by decide
  obtain ⟨sent, hsent, hparse⟩ := hserves (Str.utf8 "GET /") [] (by decide)
  have hrequest : (Str.utf8 "GET" ++ 0x20 :: (Str.utf8 "/metrics" ++
      0x20 :: Str.utf8 "HTTP/1.1\r\n")).take 5 = Str.utf8 "GET /" := by
    decide
  rw [hrequest, if_pos (by decide)] at hroot
  refine ⟨sent, hread ▸ hsent, ?_⟩
  rw [List.append_nil, hroot] at hparse
  exact hparse

end FireRedis
