import FireRedis.Commands.Replies
import FireRedis.Persistence.Faithful
import FireRedis.Store.Ranges

/-!
# One frame for each request

A reply reads as one frame exactly if its texts hold no CR LF. That goes wrong
for an unknown command whose name holds CR LF, which the reply quotes, and there
is no reply where LRANGE or ZCOUNT panics.
-/

namespace FireRedis
open Std Incremental

/-! ### Panics -/

/-- The command panics on the live entry of its key: LRANGE ends in front of the
list, ZCOUNT asks a non-empty sorted set for an upside-down range. -/
def Command.panicsOn (D : Dataset) : Command → Prop
  | .lRange k start stop => ∃ items deadline, D k = some ⟨.list items, deadline⟩ ∧
      Store.RangePanics items.length start stop
  | .zCount k minScore maxScore => ∃ z deadline, D k = some ⟨.sortedSet z, deadline⟩ ∧
      z.tree.isEmpty = false ∧ maxScore.rank < minScore.rank
  | _ => False

section Panics

variable (F : FloatText) (ord : IterOrder) (info : Bytes) (now : Reading)

theorem listRange_ok {s : Store} {items : List Bytes} {start stop : Int64} :
    (∃ r, ((Store.listRange items start stop).runAt now s).1 = .ok r) ↔
      ¬ Store.RangePanics items.length start stop := by
  rw [Store.rangePanics_iff]
  unfold Store.listRange
  dsimp only
  split
  · rename_i h
    refine ⟨fun _ => by omega, fun _ => ⟨[], rfl⟩⟩
  · rename_i h
    split
    · rename_i hstop
      constructor
      · rintro ⟨r, hr⟩
        cases hr
      · intro hn
        exact absurd ⟨by omega, by omega, hstop⟩ hn
    · rename_i hstop
      exact ⟨fun _ hn => hstop hn.2.2, fun _ => ⟨_, rfl⟩⟩

theorem countBetween_ok {s : Store} {minScore maxScore : F64} {tree : ExtTreeMap F64 Bucket} :
    (∃ n, ((Store.countBetween minScore maxScore tree).runAt now s).1 = .ok n) ↔
      ¬ (tree.isEmpty = false ∧ maxScore.rank < minScore.rank) := by
  unfold Store.countBetween
  split
  · rename_i h
    have hp : tree.isEmpty = false ∧ maxScore.rank < minScore.rank := by simpa using h
    constructor
    · rintro ⟨n, hn⟩
      cases hn
    · exact fun hn => absurd hp hn
  · rename_i h
    have hp : ¬ (tree.isEmpty = false ∧ maxScore.rank < minScore.rank) := by simpa using h
    exact ⟨fun _ => hp, fun _ => ⟨_, rfl⟩⟩

theorem reply_ok {α : Type} {m : StoreM α} {reply : α → Value} {s : Store} :
    (∃ v, ((m >>= fun a => pure (reply a) : StoreM Value).runAt now s).1 = .ok v) ↔
      ∃ a, (m.runAt now s).1 = .ok a := by
  rw [runAt_bind]
  rcases m.runAt now s with ⟨p | a, s'⟩
  · exact ⟨fun ⟨v, hv⟩ => (nomatch hv), fun ⟨a, ha⟩ => (nomatch ha)⟩
  · exact ⟨fun _ => ⟨a, rfl⟩, fun _ => ⟨reply a, rfl⟩⟩

theorem execute_replies (cmd : Command) {s : Store} (hs : s.Inv fun _ => True) :
    (∃ reply, ((cmd.execute F ord info).runAt now s).1 = .ok reply) ↔
      ¬ cmd.panicsOn (s.live now.instant) := by
  cases hp : cmd.mayPanic with
  | false =>
    have hnot : ¬ cmd.panicsOn (s.live now.instant) := by
      intro h
      cases cmd with
      | lRange k start stop => cases hp
      | zCount k minScore maxScore => cases hp
      | _ => exact h
    exact ⟨fun _ => hnot, fun _ => execute_returns F ord info now cmd hp hs⟩
  | true =>
    cases cmd with
    | lRange k start stop =>
      show (∃ reply, ((withType k "list" (Store.view k [] _ >>= fun a =>
        pure (bulkArray a))).runAt now s).1 = .ok reply) ↔ _
      rw [read_run hs now k "list"]
      unfold Command.panicsOn
      cases he : s.live now.instant k with
      | none => exact ⟨fun _ => by simp [he], fun _ => ⟨_, rfl⟩⟩
      | some e =>
        obtain ⟨value, deadline⟩ := e
        cases value with
        | list items =>
          dsimp only
          rw [if_pos (by rfl), reply_ok now, listRange_ok now]
          simp [he]
        | _ => exact ⟨fun _ => by simp [he], fun _ => ⟨wrongType, rfl⟩⟩
    | zCount k minScore maxScore =>
      show (∃ reply, ((withType k "zset" (Store.view k 0 _ >>= fun a =>
        pure (count a))).runAt now s).1 = .ok reply) ↔ _
      rw [read_run hs now k "zset"]
      unfold Command.panicsOn
      cases he : s.live now.instant k with
      | none => exact ⟨fun _ => by simp [he], fun _ => ⟨_, rfl⟩⟩
      | some e =>
        obtain ⟨value, deadline⟩ := e
        cases value with
        | sortedSet z =>
          dsimp only
          rw [if_pos (by rfl), reply_ok now, countBetween_ok now]
          simp [he]
        | _ => exact ⟨fun _ => by simp [he], fun _ => ⟨wrongType, rfl⟩⟩
    | _ => cases hp

end Panics

/-! ### One request -/

/-- The name of a request holds CR LF. -/
def NameHoldsCrlf : Value → Prop
  | .array (some (.bulkString (some b) :: _)) => crlf <:+: b
  | _ => False

/-- The request parses to a command that panics on the live dataset. -/
def Panics (F : FloatText) (D : Dataset) (frame : Value) : Prop :=
  ∃ args cmd, frame = .array (some args) ∧ tryFrom F args = .ok cmd ∧ cmd.panicsOn D

section Request

variable (F : FloatText) (ord : IterOrder) (info : Bytes) (now : Reading)

theorem respond_unknown {frame : Value} (h : NameHoldsCrlf frame) :
    ∃ b, crlf <:+: b ∧ respond F ord info frame = pure (unknownCommand b) := by
  match frame with
  | .array (some (.bulkString (some b) :: rest)) =>
    have hparse : tryFrom F (.bulkString (some b) :: rest) = .error (unknownCommand b) := by
      simp only [tryFrom, findParser_crlf F h]
      rfl
    refine ⟨b, h, ?_⟩
    simp only [respond, hparse]

/-- A reply is of one line unless it quotes the name of a request that is not. -/
theorem respond_noCrlf {frame reply : Value} (h : ¬ NameHoldsCrlf frame) {s s' : Store}
    (hrun : (respond F ord info frame).runAt now s = (.ok reply, s')) : reply.NoCrlf := by
  have hempty : (Value.error (Str.lit "ERR empty command")).NoCrlf := (noCrlf_lit rfl).2
  have hinvalid : (Value.error (Str.lit "ERR invalid request format")).NoCrlf :=
    (noCrlf_lit rfl).2
  unfold respond at hrun
  split at hrun
  · rw [← Except.ok.inj (Prod.mk.inj hrun).1]
    exact hempty
  · rename_i args hne
    cases hparse : tryFrom F args with
    | ok cmd =>
      simp only [hparse] at hrun
      exact (returns_execute F ord info cmd).exec (Call.run now) hrun
    | error e =>
      simp only [hparse] at hrun
      rw [← Except.ok.inj (Prod.mk.inj hrun).1]
      rcases tryFrom_error hparse with hline | ⟨b, rest, hargs, -, he⟩
      · exact hline
      · rw [he, noCrlf_unknownCommand]
        rw [hargs] at h
        exact h
  · rw [← Except.ok.inj (Prod.mk.inj hrun).1]
    exact hinvalid

theorem respond_replies (frame : Value) {s : Store} (hs : s.Inv fun _ => True) :
    (∃ reply, ((respond F ord info frame).runAt now s).1 = .ok reply) ↔
      ¬ Panics F (s.live now.instant) frame := by
  rcases request_cases F frame with ⟨args, cmd, rfl, hcmd⟩ | ⟨reply, hrejected⟩
  · rw [respond_parsed F ord info hcmd, execute_replies F ord info now cmd hs]
    apply not_congr
    constructor
    · exact fun h => ⟨args, cmd, rfl, hcmd, h⟩
    · rintro ⟨args', cmd', hargs, hcmd', h⟩
      obtain rfl : args = args' := by simpa using hargs
      rw [hcmd] at hcmd'
      exact Except.ok.inj hcmd' ▸ h
  · refine ⟨fun _ hp => ?_, fun _ => ⟨reply, by rw [hrejected.respond, runAt_pure]⟩⟩
    obtain ⟨args, cmd, ha, hc, -⟩ := hp
    exact hrejected.unparsed ha cmd hc

end Request

theorem decode_errorText {s : Str} {v : Value}
    (h : decode (encode (.error s)) = (.ok (some v), [])) : ¬ crlf <:+: s.bytes := by
  intro hcrlf
  have hline : parseLine (encode (.error s)) 1 ≠ none := by
    intro hnone
    have hparse : parseValue (encode (.error s)) = .ok none := by
      rw [parseValue_eq]
      show parseError (encode (.error s)) = _
      rw [parseError, hnone]
    rw [decode_eq, hparse] at h
    cases (Prod.mk.inj h).1
  obtain ⟨⟨line, n⟩, hparsed⟩ := Option.ne_none_iff_exists'.mp hline
  obtain ⟨rest, htail, hn, hnot⟩ := parseLine_eq_some hparsed
  have hparse : parseValue (encode (.error s)) =
      .ok (some (.error (Str.fromUtf8Lossy line), n)) := by
    rw [parseValue_eq]
    show parseError (encode (.error s)) = _
    rw [parseError, hparsed]
  rw [decode_eq, hparse] at h
  -- Nothing is left over, so the first line is the whole text.
  have hdrop : (encode (.error s)).drop n = [] := (Prod.mk.inj h).2
  have hrest : rest = [] := by
    have hlen : (s.bytes ++ crlf).length = (line ++ crlf ++ rest).length := by rw [htail]
    have hle := List.drop_eq_nil_iff.mp hdrop
    have hcr : crlf.length = 2 := rfl
    simp only [encode, List.length_cons, List.length_append, hcr] at hlen hle
    exact List.length_eq_zero_iff.mp (by omega)
  rw [hrest, List.append_nil] at htail
  exact hnot (List.append_cancel_right htail ▸ hcrlf)

/-! ### Pipelined requests -/

/-- The replies of a connection; a panic ends it. -/
def pipelined (F : FloatText) : List Turn → Store → List Value
  | [], _ => []
  | t :: turns, s =>
    match t.run F s with
    | (.ok reply, s') => reply :: pipelined F turns s'
    | (.error _, _) => []

/-- No request of the run panics or has CR LF in its name. -/
def Answerable (F : FloatText) : List Turn → Store → Prop
  | [], _ => True
  | t :: turns, s => (¬ NameHoldsCrlf t.frame ∧ ¬ Panics F (s.live t.now.instant) t.frame) ∧
    Answerable F turns (t.run F s).2

section Pipelined

variable (F : FloatText)

theorem pipelined_eq (ord : IterOrder) (info : Bytes) (now : Reading) (frames : List Value)
    (s : Store) : pipelined F (frames.map fun frame => ⟨frame, ord, info, now⟩) s =
      (handleConnection F ord info now frames s).replies := by
  induction frames generalizing s with
  | nil => rfl
  | cons frame frames ih =>
    rw [List.map_cons, pipelined, handleConnection, Turn.run]
    rcases (respond F ord info frame).runAt now s with ⟨p | reply, s'⟩
    · rfl
    · dsimp only
      rw [ih]

theorem pipelined_answerable (turns : List Turn) {s : Store} (hs : s.Inv fun _ => True)
    (hfits : ∀ v ∈ pipelined F turns s, v.Fits) (h : Answerable F turns s) :
    (pipelined F turns s).length = turns.length ∧
      drain decode ((pipelined F turns s).flatMap encode) =
        ((pipelined F turns s).map norm, .pending []) := by
  induction turns generalizing s with
  | nil => exact ⟨rfl, drain_more decode_lawful decode_nil⟩
  | cons t turns ih =>
    obtain ⟨⟨hname, hpanic⟩, htail⟩ := h
    obtain ⟨reply, hreply⟩ := (respond_replies F t.ord t.info t.now t.frame hs).mpr hpanic
    have hinv := inv_respond F t.ord t.info t.now t.frame hs
    rcases hrun : t.run F s with ⟨r, s'⟩
    have hrun' : (respond F t.ord t.info t.frame).runAt t.now s = (r, s') := hrun
    rw [hrun'] at hreply hinv
    obtain rfl : r = .ok reply := hreply
    have hline := respond_noCrlf F t.ord t.info t.now hname hrun'
    rw [pipelined, hrun] at hfits ⊢
    rw [hrun] at htail
    obtain ⟨hlen, hdrain⟩ := ih hinv (fun v hv => hfits v (List.mem_cons_of_mem _ hv)) htail
    have hdecode := decode_encode reply (hfits reply (List.mem_cons_self ..)) hline
      ((pipelined F turns s').flatMap encode)
    refine ⟨by rw [List.length_cons, List.length_cons, hlen], ?_⟩
    rw [List.flatMap_cons, drain_frame decode_lawful (by omega) hdecode, hdrain, List.map_cons]

theorem answerable_of_frames (turns : List Turn) {s : Store} (hs : s.Inv fun _ => True)
    (hlen : (pipelined F turns s).length = turns.length)
    (hline : ∀ v ∈ pipelined F turns s, ∀ b, crlf <:+: b → v ≠ unknownCommand b) :
    Answerable F turns s := by
  induction turns generalizing s with
  | nil => trivial
  | cons t turns ih =>
    have hinv := inv_respond F t.ord t.info t.now t.frame hs
    rw [pipelined] at hlen hline
    rw [Answerable]
    rcases hrun : t.run F s with ⟨p | reply, s'⟩
    · rw [hrun] at hlen
      cases hlen
    · have hrun' : (respond F t.ord t.info t.frame).runAt t.now s = (.ok reply, s') := hrun
      rw [hrun'] at hinv
      rw [hrun] at hlen hline
      refine ⟨⟨fun hname => ?_, ?_⟩, ?_⟩
      · obtain ⟨b, hb, hrespond⟩ := respond_unknown F t.ord t.info hname
        rw [hrespond, runAt_pure] at hrun'
        have hreply := Except.ok.inj (Prod.mk.inj hrun').1
        exact hline reply (List.mem_cons_self ..) b hb hreply.symm
      · exact (respond_replies F t.ord t.info t.now t.frame hs).mp ⟨reply, by rw [hrun']⟩
      · exact ih hinv (by simpa using hlen) fun v hv => hline v (List.mem_cons_of_mem _ hv)

/-- A request gets one frame that takes all bytes of its reply exactly if its
name holds no CR LF and it does not panic; and the reply stream of a pipeline
reads as one frame for each request, in order, exactly if that holds for every
request where it is executed. -/
theorem one_frame_for_each_request (s : Store) (hs : s.Inv fun _ => True) :
    (∀ t : Turn, (∀ v s', t.run F s = (.ok v, s') → v.Fits) →
      ((∃ reply s' v, t.run F s = (.ok reply, s') ∧ decode (encode reply) = (.ok (some v), [])) ↔
        ¬ NameHoldsCrlf t.frame ∧ ¬ Panics F (s.live t.now.instant) t.frame)) ∧
    ∀ turns : List Turn, (∀ v ∈ pipelined F turns s, v.Fits) →
      ((pipelined F turns s).length = turns.length ∧
        drain decode ((pipelined F turns s).flatMap encode) =
          ((pipelined F turns s).map norm, .pending []) ↔ Answerable F turns s) := by
  constructor
  · intro t hfits
    constructor
    · rintro ⟨reply, s', v, hrun, hdecode⟩
      refine ⟨fun hname => ?_, ?_⟩
      · obtain ⟨b, hb, hrespond⟩ := respond_unknown F t.ord t.info hname
        rw [Turn.run, hrespond, runAt_pure] at hrun
        rw [← Except.ok.inj (Prod.mk.inj hrun).1] at hdecode
        exact (noCrlf_unknownCommand b).mp (decode_errorText hdecode) hb
      · exact (respond_replies F t.ord t.info t.now t.frame hs).mp
          ⟨reply, congrArg Prod.fst hrun⟩
    · rintro ⟨hname, hpanic⟩
      obtain ⟨reply, hreply⟩ := (respond_replies F t.ord t.info t.now t.frame hs).mpr hpanic
      rcases hrun : t.run F s with ⟨r, s'⟩
      obtain rfl : r = .ok reply := (congrArg Prod.fst hrun).symm.trans hreply
      have hline := respond_noCrlf F t.ord t.info t.now hname hrun
      have hdecode := decode_encode reply (hfits reply s' hrun) hline []
      rw [List.append_nil] at hdecode
      exact ⟨reply, s', norm reply, rfl, hdecode⟩
  · intro turns hfits
    refine ⟨fun ⟨hlen, hdrain⟩ => ?_, pipelined_answerable F turns hs hfits⟩
    apply answerable_of_frames F turns hs hlen
    -- Frames read off a stream hold no CR LF.
    rintro v hv b hb rfl
    have hmem : unknownCommand b ∈ (drain decode ((pipelined F turns s).flatMap encode)).1 := by
      rw [hdrain]
      exact List.mem_map.mpr ⟨_, hv, rfl⟩
    exact (noCrlf_unknownCommand b).mp (wire_of_drain _ _ hmem).2.1 hb

/-- A GET and an unknown command. -/
theorem one_frame_for_each_request_two :
    let F : FloatText := noFloats
    let turns : List Turn := [⟨commandValue "GET" [Str.utf8 "k"], .sorted, [], ⟨0, 0⟩⟩,
      ⟨commandValue "NOPE" [], .sorted, [], ⟨7, 0⟩⟩]
    (drain decode ((pipelined F turns Store.empty).flatMap encode)).1.length = 2 := by
  intro F turns
  have hreplies : pipelined F turns Store.empty =
      [.bulkString none, unknownCommand (Str.utf8 "NOPE")] := rfl
  have hget : tryFrom F [bulk (Str.utf8 "GET"), bulk (Str.utf8 "k")] = .ok (.get (Str.lit "k")) :=
    rfl
  have hnope : tryFrom F [bulk (Str.utf8 "NOPE")] = .error (unknownCommand (Str.utf8 "NOPE")) := rfl
  have hanswerable : Answerable F turns Store.empty := by
    refine ⟨⟨(findCrlf_eq_none _).mp (by decide), ?_⟩, ⟨(findCrlf_eq_none _).mp (by decide), ?_⟩,
      trivial⟩
    · rintro ⟨args, cmd, hargs, hcmd, h⟩
      rw [← Option.some.inj (Value.array.inj hargs)] at hcmd
      rw [← Except.ok.inj (hget.symm.trans hcmd)] at h
      exact h
    · rintro ⟨args, cmd, hargs, hcmd, -⟩
      rw [← Option.some.inj (Value.array.inj hargs)] at hcmd
      cases hnope.symm.trans hcmd
  obtain ⟨-, hdrain⟩ := ((one_frame_for_each_request F Store.empty (Store.inv_empty _)).2 turns (by
    rw [hreplies]
    intro v hv
    simp only [List.mem_cons, List.not_mem_nil, or_false] at hv
    rcases hv with rfl | rfl <;> trivial)).mpr hanswerable
  rw [hdrain, hreplies]
  rfl

/-- The name of a request comes back in an error of two lines. -/
theorem crlf_in_name :
    let F : FloatText := noFloats
    let t : Turn := ⟨commandValue "A\r\nB" [], .sorted, [], ⟨0, 0⟩⟩
    t.frame.Wire ∧ ∃ reply, t.run F Store.empty = (.ok reply, Store.empty) ∧
      (decode (encode reply)).2 = Str.utf8 "B'\r\n" ∧
        ¬ ∃ v, decode (encode reply) = (.ok (some v), []) := by
  intro F t
  refine ⟨wire_commandValue _ _ (by decide) (by decide) (by decide),
    unknownCommand (Str.utf8 "A\r\nB"), rfl, by decide, ?_⟩
  rintro ⟨v, hv⟩
  have hrest : (decode (encode (unknownCommand (Str.utf8 "A\r\nB")))).2 = Str.utf8 "B'\r\n" := by
    decide
  rw [hv] at hrest
  exact absurd (show [] = Str.utf8 "B'\r\n" from hrest) (by decide)

end Pipelined

end FireRedis
