import FireRedis.Concurrency.Lists

/-!
# Counters under clients that take turns

INCR and DECR check the deadline of the key in one step and add to the number
in another, inside one entry guard. However the steps of any number of clients
are mixed, no addition is lost.
-/

namespace FireRedis
open Std Pool

inductive CounterCommand where
  | incr
  | decr
  deriving DecidableEq

/-- Clients that each end with the list of their replies, on one store. -/
abbrev Sessions (ι : Type) := Pool Call Call.Answer Panic Store fun _ : ι => List Value

namespace CounterCommand

def handle (key : Str) : CounterCommand → StoreM Value
  | incr => handleIncr key
  | decr => handleDecr key

def delta : CounterCommand → Int64
  | incr => 1
  | decr => -1

/-- A client that has the replies `got` and sends its other requests one by one. -/
def session (key : Str) : List CounterCommand → List Value → StoreM (List Value)
  | [], got => return got
  | cmd :: left, got => do
    let reply ← cmd.handle key
    session key left (got ++ [reply])

/-- The number under a key that is absent or holds the text of one. -/
def Counts (key : Str) (s : Store) (n : Int64) : Prop :=
  (s.data[key]? = none ∧ n = 0) ∨
    ∃ text : Str, s.data[key]? = some (.string text.bytes) ∧ Decimal.parseI64 text.bytes = some n

def isNumber : Value → Bool
  | .integer _ => true
  | _ => false

/-- How many of the requests were of this kind and had a number for a reply. -/
def succeeded (cmd : CounterCommand) (sent : List CounterCommand) (got : List Value) : ℕ :=
  (sent.zip got).countP fun e => e.1 = cmd ∧ isNumber e.2

/-- The next step of the client changes the data map. -/
def Updates {α : Type} (prog : StoreM α) : Prop :=
  ∃ key f, prog.next = some (.data (.alter key f))

/-! ### One request -/

section Request

variable (key : Str)

def update (cmd : CounterCommand) (value : Option StoredValue) : Except Str Int64 × StoredValue :=
  Store.addToString cmd.delta (value.getD (.string (Str.utf8 "0")))

theorem handle_calls {α : Type} (cmd : CounterCommand) (g : Value → StoreM α) : ∃ k,
    (cmd.handle key >>= g) = .call (.expirations (.get key)) k ∧ ∃ k',
      k (none : Option Instant) =
        .call (.data (.alter key fun value => some (cmd.update value).2)) k' ∧
      ∀ old : Option StoredValue, k' old = g (counterReply (cmd.update old).1) := by
  cases cmd <;> exact ⟨_, rfl, _, rfl, fun _ => rfl⟩

variable {key}

theorem addToString_number {text : Str} {n : Int64} (h : Decimal.parseI64 text.bytes = some n)
    (d : Int64) : Store.addToString d (.string text.bytes) =
      match Store.checkedAdd n d with
      | none => (.error (Str.lit "Integer overflow"), .string text.bytes)
      | some m => (.ok m, .string (Decimal.displayI64 m)) := by
  cases hsum : Store.checkedAdd n d with
  | none => simp only [Store.addToString, Str.fromUtf8_bytes, h, hsum]
  | some m => simp only [Store.addToString, Str.fromUtf8_bytes, h, hsum]

theorem checkedAdd_some {a b m : Int64} (h : Store.checkedAdd a b = some m) :
    m.toInt = a.toInt + b.toInt := by
  obtain ⟨⟨hlo, hhi⟩, hm⟩ := Option.ite_none_right_eq_some.mp h
  rw [← Option.some.inj hm]
  exact Int64.toInt_ofInt_of_le hlo hhi

theorem counts_display {s : Store} {n : Int64}
    (h : s.data[key]? = some (.string (Decimal.displayI64 n))) : Counts key s n := by
  have hbytes : (Str.fromUtf8Lossy (Decimal.displayI64 n)).bytes = Decimal.displayI64 n :=
    Str.fromUtf8Lossy_of_ascii _ (Decimal.ascii_displayI64 n)
  refine Or.inr ⟨Str.fromUtf8Lossy (Decimal.displayI64 n), ?_, ?_⟩
  · rw [h, hbytes]
  · rw [hbytes, Decimal.parseI64_displayI64]

variable {s : Store} {n : Int64} (h : Counts key s n) {cmd : CounterCommand}
include h

theorem update_ok {m : Int64} (hadd : Store.checkedAdd n cmd.delta = some m) :
    cmd.update s.data[key]? = (.ok m, .string (Decimal.displayI64 m)) := by
  rcases h with ⟨hnone, rfl⟩ | ⟨text, htext, hparse⟩
  · have hzero : Decimal.parseI64 (Str.lit "0").bytes = some 0 := by decide
    have hrun := addToString_number hzero cmd.delta
    rw [hadd] at hrun
    rw [hnone]
    exact hrun
  · have hrun := addToString_number hparse cmd.delta
    rw [hadd] at hrun
    rw [htext]
    exact hrun

theorem update_error (hadd : Store.checkedAdd n cmd.delta = none) :
    ∃ v, s.data[key]? = some v ∧
      cmd.update s.data[key]? = (.error (Str.lit "Integer overflow"), v) := by
  rcases h with ⟨hnone, rfl⟩ | ⟨text, htext, hparse⟩
  · cases cmd <;> cases hadd
  · have hrun := addToString_number hparse cmd.delta
    rw [hadd] at hrun
    refine ⟨_, htext, ?_⟩
    rw [htext]
    exact hrun

end Request

/-! ### The run -/

/-- How far a client is: it has the replies `got` to `sent` and is yet to have
those to `left`. -/
structure Progress where
  sent : List CounterCommand
  left : List CounterCommand
  got : List Value

namespace Progress

def count (cmd : CounterCommand) (x : Progress) : ℕ := cmd.succeeded x.sent x.got

def answer (x : Progress) (cmd : CounterCommand) (left : List CounterCommand) (reply : Value) :
    Progress := ⟨x.sent ++ [cmd], left, x.got ++ [reply]⟩

theorem count_answer {x : Progress} (hlen : x.got.length = x.sent.length) (c cmd : CounterCommand)
    (left : List CounterCommand) (reply : Value) :
    (x.answer cmd left reply).count c = x.count c + if cmd = c ∧ isNumber reply then 1 else 0 := by
  rw [count, answer, succeeded, List.zip_append hlen.symm, List.countP_append]
  simp [count, succeeded, List.countP_cons]

end Progress

variable (key : Str)

/-- What is left of a session: a request that is still to come or has made its check. -/
inductive Midway : List CounterCommand → List Value → StoreM (List Value) → Prop
  | between (left : List CounterCommand) (got : List Value) : Midway left got (session key left got)
  | checked (cmd : CounterCommand) (left : List CounterCommand) (got : List Value)
      (k : Option StoredValue → StoreM (List Value))
      (hk : ∀ old, k old = session key left (got ++ [counterReply (cmd.update old).1])) :
      Midway (cmd :: left) got (.call (.data (.alter key fun value => some (cmd.update value).2)) k)

def Progress.Of (reqs : List CounterCommand) (x : Progress) (prog : StoreM (List Value)) : Prop :=
  x.sent ++ x.left = reqs ∧ x.got.length = x.sent.length ∧ Midway key x.left x.got prog

theorem session_calls (cmd : CounterCommand) (left : List CounterCommand) (got : List Value) :
    ∃ k, session key (cmd :: left) got = .call (.expirations (.get key)) k ∧
      Midway key (cmd :: left) got (k (none : Option Instant)) := by
  obtain ⟨k, hk, k', hk', hnext⟩ := cmd.handle_calls key fun reply =>
    session key left (got ++ [reply])
  exact ⟨k, hk, hk' ▸ .checked cmd left got k' hnext⟩

variable {ι : Type} [DecidableEq ι] [Fintype ι] (reqs : ι → List CounterCommand)

def sessions (s : Store) : Sessions ι := ⟨s, fun i => session key (reqs i) []⟩

def total (cmd : CounterCommand) (progress : ι → Progress) : ℕ := ∑ i, (progress i).count cmd

/-- The number under the key is the first one, with what the clients have been
told was added to it. -/
structure Tally (s₀ : Store) (n₀ : Int64) (progress : ι → Progress) (s : Store) (n : Int64) :
    Prop where
  counts : Counts key s n
  sum : n.toInt = n₀.toInt + (total incr progress : ℤ) - (total decr progress : ℤ)
  bytes : s.data[key]? = if total incr progress + total decr progress = 0 then s₀.data[key]?
    else some (.string (Decimal.displayI64 n))

omit [DecidableEq ι] in
theorem total_update [DecidableEq ι] (cmd : CounterCommand) (progress : ι → Progress) (i : ι)
    (x : Progress) : total cmd (Function.update progress i x) + (progress i).count cmd =
      total cmd progress + x.count cmd :=
  sum_update (Progress.count cmd) progress i x

structure Inv (s₀ : Store) (n₀ : Int64) (progress : ι → Progress) (p : Sessions ι) : Prop where
  stages : ∀ i, (progress i).Of key (reqs i) (p.progs i)
  deadline : p.state.expirations[key]? = none
  tally : ∃ n, Tally key s₀ n₀ progress p.state n

section Step

variable {key reqs} {s₀ : Store} {n₀ : Int64} {progress : ι → Progress} {p : Sessions ι}
  (hp : Inv key reqs s₀ n₀ progress p) {i : ι} (t : Reading)
include hp

/-- A step that neither touches the number nor gives a reply. -/
theorem Inv.quiet {x : Progress} {prog : StoreM (List Value)} (hof : x.Of key (reqs i) prog)
    (hcount : ∀ cmd, x.count cmd = (progress i).count cmd) :
    Inv key reqs s₀ n₀ (Function.update progress i x)
      ⟨p.state, Function.update p.progs i prog⟩ := by
  have hsame : ∀ cmd, total cmd (Function.update progress i x) = total cmd progress := by
    intro cmd
    have hsum := total_update cmd progress i x
    rw [hcount] at hsum
    exact Nat.add_right_cancel hsum
  obtain ⟨n, hcounts, hsum, hbytes⟩ := hp.tally
  refine ⟨update_rel (r := fun j (x : Progress) prog => x.Of key (reqs j) prog) hp.stages i hof,
    hp.deadline, n, hcounts, ?_, ?_⟩
  · rw [hsame, hsame]
    exact hsum
  · rw [hsame, hsame]
    exact hbytes

theorem Inv.check {left : List CounterCommand} {got : List Value}
    (hx : (progress i).left = left ∧ (progress i).got = got)
    (hprog : p.progs i = session key left got) :
    (advance Call.run i t p).state = p.state ∧
      ∃ progress', Inv key reqs s₀ n₀ progress' (advance Call.run i t p) := by
  cases left with
  | nil =>
    rw [advance_ended (by rw [hprog]; rfl)]
    exact ⟨rfl, progress, hp⟩
  | cons cmd left =>
    obtain ⟨k, hk, hmid⟩ := session_calls key cmd left got
    rw [hk] at hprog
    obtain ⟨hsent, hlen, -⟩ := hp.stages i
    rw [advance_call hprog]
    refine ⟨rfl, _, hp.quiet (x := progress i) ⟨hsent, hlen, ?_⟩ fun _ => rfl⟩
    rw [hx.1, hx.2]
    show Midway key (cmd :: left) got (k p.state.expirations[key]?)
    rw [hp.deadline]
    exact hmid

section Update

variable {cmd : CounterCommand} {left : List CounterCommand}
  {k : Option StoredValue → StoreM (List Value)} {n : Int64}
  (hleft : (progress i).left = cmd :: left)
  (hk : ∀ old, k old = session key left ((progress i).got ++ [counterReply (cmd.update old).1]))
  (hprog : p.progs i = .call (.data (.alter key fun value => some (cmd.update value).2)) k)
  (htally : Tally key s₀ n₀ progress p.state n)
include hleft hk hprog

/-- One more reply, and a number under the key that agrees with it. -/
theorem Inv.answer {reply : Value} {v : StoredValue} {m : Int64}
    (hupdate : (counterReply (cmd.update p.state.data[key]?).1, (cmd.update p.state.data[key]?).2) =
      (reply, v))
    (htally : ∀ s, s.data[key]? = some v → Tally key s₀ n₀ (Function.update progress i
      ((progress i).answer cmd left reply)) s m) :
    let q := advance Call.run i t p
    q.progs i = session key left ((progress i).got ++ [reply]) ∧ q.state.data[key]? = some v ∧
      ∃ progress', Inv key reqs s₀ n₀ progress' q := by
  obtain ⟨hreply, hvalue⟩ := Prod.mk.inj hupdate
  obtain ⟨hsent, hlen, -⟩ := hp.stages i
  have hnext : k p.state.data[key]? = session key left ((progress i).got ++ [reply]) := by
    rw [hk, hreply]
  have hdata := ListCommand.run_alter key (fun value => some (cmd.update value).2) t p.state
  rw [hvalue] at hdata
  have hof : ((progress i).answer cmd left reply).Of key (reqs i) (k p.state.data[key]?) := by
    refine ⟨?_, ?_, ?_⟩
    · rw [← hsent, hleft]
      exact List.append_assoc ..
    · show ((progress i).got ++ [reply]).length = ((progress i).sent ++ [cmd]).length
      rw [List.length_append, List.length_append, hlen]
      rfl
    · rw [hnext]
      exact .between left _
  refine ⟨?_, ?_, Function.update progress i ((progress i).answer cmd left reply), ?_⟩
  · rw [advance_self hprog]
    exact hnext
  · rw [advance_state hprog]
    exact hdata
  · rw [advance_call hprog]
    exact ⟨update_rel (r := fun j (x : Progress) prog => x.Of key (reqs j) prog) hp.stages i hof,
      hp.deadline, m, htally _ hdata⟩

include htally

theorem Inv.added {m : Int64} (hadd : Store.checkedAdd n cmd.delta = some m) :
    let q := advance Call.run i t p
    q.progs i = session key left ((progress i).got ++ [.integer m]) ∧
      q.state.data[key]? = some (.string (Decimal.displayI64 m)) ∧
      ∃ progress', Inv key reqs s₀ n₀ progress' q := by
  have hupdate := update_ok htally.counts hadd
  refine hp.answer t hleft hk hprog (m := m) (by rw [hupdate]; rfl) fun s hs => ?_
  have hcount : ∀ c, total c (Function.update progress i
      ((progress i).answer cmd left (.integer m))) =
        total c progress + if cmd = c then 1 else 0 := by
    intro c
    have hsum := total_update c progress i ((progress i).answer cmd left (.integer m))
    rw [Progress.count_answer (hp.stages i).2.1] at hsum
    simp only [isNumber, and_true] at hsum
    omega
  have hm := checkedAdd_some hadd
  have hsum := htally.sum
  refine ⟨counts_display hs, ?_, ?_⟩
  · rw [hcount, hcount]
    cases cmd with
    | incr =>
      have hdelta : incr.delta.toInt = 1 := by decide
      simp only [reduceIte, reduceCtorEq]
      omega
    | decr =>
      have hdelta : decr.delta.toInt = -1 := by decide
      simp only [reduceIte, reduceCtorEq]
      omega
  · rw [hcount, hcount, hs, if_neg]
    cases cmd <;> simp

theorem Inv.refused (hadd : Store.checkedAdd n cmd.delta = none) :
    let q := advance Call.run i t p
    q.progs i = session key left
        ((progress i).got ++ [.error (Str.lit "Integer overflow")]) ∧
      q.state.data[key]? = p.state.data[key]? ∧
      ∃ progress', Inv key reqs s₀ n₀ progress' q := by
  obtain ⟨v, hv, hupdate⟩ := update_error htally.counts hadd
  have hcount : ∀ c, total c (Function.update progress i
      ((progress i).answer cmd left (.error (Str.lit "Integer overflow")))) = total c progress := by
    intro c
    have hsum := total_update c progress i
      ((progress i).answer cmd left (.error (Str.lit "Integer overflow")))
    rw [Progress.count_answer (hp.stages i).2.1] at hsum
    simp only [isNumber, Bool.false_eq_true, and_false, if_false] at hsum
    omega
  rw [hv]
  refine hp.answer t hleft hk hprog (m := n) (by rw [hupdate]; rfl) fun s hs => ?_
  have hsame : s.data[key]? = p.state.data[key]? := by rw [hs, hv]
  refine ⟨?_, ?_, ?_⟩
  · have hcounts := htally.counts
    rw [Counts, ← hsame] at hcounts
    exact hcounts
  · rw [hcount, hcount]
    exact htally.sum
  · rw [hcount, hcount, hsame]
    exact htally.bytes

end Update

omit [DecidableEq ι] in
/-- A client is between two requests, or stands before its update. -/
theorem Inv.cases (i : ι) :
    p.progs i = session key (progress i).left (progress i).got ∨
      ∃ cmd left k, (progress i).left = cmd :: left ∧
        (∀ old, k old = session key left
          ((progress i).got ++ [counterReply (cmd.update old).1])) ∧
        p.progs i = .call (.data (.alter key fun value => some (cmd.update value).2)) k := by
  obtain ⟨-, -, hmid⟩ := hp.stages i
  generalize (progress i).left = left, (progress i).got = got, p.progs i = prog at hmid
  cases hmid with
  | between left got => exact Or.inl rfl
  | checked cmd left got k hk => exact Or.inr ⟨cmd, left, k, rfl, hk, rfl⟩

theorem Inv.step : ∃ progress', Inv key reqs s₀ n₀ progress' (advance Call.run i t p) := by
  rcases hp.cases i with hprog | ⟨cmd, left, k, hleft, hk, hprog⟩
  · exact (hp.check t ⟨rfl, rfl⟩ hprog).2
  · obtain ⟨n, htally⟩ := hp.tally
    cases hadd : Store.checkedAdd n cmd.delta with
    | some m => exact (hp.added t hleft hk hprog htally hadd).2.2
    | none => exact (hp.refused t hleft hk hprog htally hadd).2.2

end Step

section Runs

variable {key reqs} {s : Store} {n₀ : Int64} {p : Sessions ι}

theorem inv_runs (hkey : Counts key s n₀) (hexp : s.expirations[key]? = none)
    (h : Runs Call.run (fun _ _ => True) (sessions key reqs s) p) :
    ∃ progress, Inv key reqs s n₀ progress p := by
  refine runs_induction (I := fun p => ∃ progress, Inv key reqs s n₀ progress p) ?_ ?_ h
  · refine ⟨fun i => ⟨[], reqs i, []⟩, fun i => ⟨rfl, rfl, .between _ _⟩, hexp, n₀, hkey, ?_, ?_⟩
    · simp [total, Progress.count, succeeded]
    · simp [total, Progress.count, succeeded, sessions]
  · rintro p i t ⟨progress, hp⟩ -
    exact hp.step t

omit [DecidableEq ι] in
theorem Inv.done {s₀ : Store} {progress : ι → Progress} (hp : Inv key reqs s₀ n₀ progress p) {i : ι}
    {replies : List Value} (h : p.Replied i replies) :
    (progress i).left = [] ∧ (progress i).got = replies := by
  rw [Replied] at h
  rcases hp.cases i with hprog | ⟨cmd, left, k, -, -, hprog⟩
  · rw [hprog] at h
    generalize (progress i).left = left at h
    cases left with
    | nil =>
      cases h
      exact ⟨rfl, rfl⟩
    | cons cmd left =>
      obtain ⟨k, hk, -⟩ := session_calls key cmd left (progress i).got
      rw [hk] at h
      cases h
  · rw [hprog] at h
    cases h

/-- Only the update changes the data map. -/
theorem session_next {left : List CounterCommand} {got : List Value}
    (h : Updates (session key left got)) : False := by
  obtain ⟨key', f, hnext⟩ := h
  cases left with
  | nil => cases hnext
  | cons cmd left =>
    obtain ⟨k, hk, -⟩ := session_calls key cmd left got
    rw [hk] at hnext
    cases hnext

end Runs

end CounterCommand

open CounterCommand in
/-- In every run of any number of clients with any INCR and DECR requests on one
key: what the key holds once all have their replies, and what the one step of a
request that gives a reply does. -/
theorem counter_conserved {ι : Type} [DecidableEq ι] [Fintype ι] (key : Str)
    (reqs : ι → List CounterCommand) (s : Store) (n₀ : Int64) (hkey : Counts key s n₀)
    (hexp : s.expirations[key]? = none) (p : Sessions ι)
    (h : Runs Call.run (fun _ _ => True) (sessions key reqs s) p) :
    (∀ replies : ι → List Value, (∀ i, p.Replied i (replies i)) →
      let incrs := ∑ i, incr.succeeded (reqs i) (replies i)
      let decrs := ∑ i, decr.succeeded (reqs i) (replies i)
      (∀ i, (replies i).length = (reqs i).length) ∧
      ∃ n : Int64, n.toInt = n₀.toInt + (incrs : ℤ) - (decrs : ℤ) ∧
        p.state.data[key]? = if incrs + decrs = 0 then s.data[key]?
          else some (.string (Decimal.displayI64 n))) ∧
    ∀ i t, let q := advance Call.run i t p
      (¬ Updates (p.progs i) → q.state = p.state) ∧
      (Updates (p.progs i) → ∃ sent cmd left got n,
        reqs i = sent ++ cmd :: left ∧ got.length = sent.length ∧ Counts key p.state n ∧
        (-2 ^ 63 ≤ n.toInt + cmd.delta.toInt ∧ n.toInt + cmd.delta.toInt < 2 ^ 63 →
          ∃ m : Int64, m.toInt = n.toInt + cmd.delta.toInt ∧
            q.progs i = session key left (got ++ [.integer m]) ∧
            q.state.data[key]? = some (.string (Decimal.displayI64 m))) ∧
        (¬ (-2 ^ 63 ≤ n.toInt + cmd.delta.toInt ∧ n.toInt + cmd.delta.toInt < 2 ^ 63) →
          q.progs i = session key left (got ++ [.error (Str.lit "Integer overflow")]) ∧
            q.state.data[key]? = p.state.data[key]?)) := by
  obtain ⟨progress, hp⟩ := inv_runs hkey hexp h
  refine ⟨fun replies hdone => ?_, fun i t => ⟨fun hquiet => ?_, fun hupdate => ?_⟩⟩
  · obtain ⟨n, htally⟩ := hp.tally
    have hall : ∀ i, (progress i).sent = reqs i ∧ (progress i).got = replies i := by
      intro i
      obtain ⟨hleft, hgot⟩ := hp.done (hdone i)
      obtain ⟨hsent, -, -⟩ := hp.stages i
      rw [hleft, List.append_nil] at hsent
      exact ⟨hsent, hgot⟩
    have htotal : ∀ cmd, total cmd progress = ∑ i, cmd.succeeded (reqs i) (replies i) := by
      intro cmd
      refine Finset.sum_congr rfl fun i _ => ?_
      rw [Progress.count, (hall i).1, (hall i).2]
    refine ⟨fun i => ?_, n, ?_, ?_⟩
    · rw [← (hall i).1, ← (hall i).2]
      exact (hp.stages i).2.1
    · rw [← htotal, ← htotal]
      exact htally.sum
    · rw [← htotal, ← htotal]
      exact htally.bytes
  · rcases hp.cases i with hprog | ⟨cmd, left, k, hleft, hk, hprog⟩
    · exact (hp.check t ⟨rfl, rfl⟩ hprog).1
    · exact absurd ⟨_, _, by rw [hprog]; rfl⟩ hquiet
  · rcases hp.cases i with hprog | ⟨cmd, left, k, hleft, hk, hprog⟩
    · rw [hprog] at hupdate
      exact (session_next hupdate).elim
    · obtain ⟨n, htally⟩ := hp.tally
      obtain ⟨hsent, hlen, -⟩ := hp.stages i
      rw [hleft] at hsent
      refine ⟨_, cmd, left, _, n, hsent.symm, hlen, htally.counts, fun hin => ?_, fun hout => ?_⟩
      · have hadd : Store.checkedAdd n cmd.delta =
            some (Int64.ofInt (n.toInt + cmd.delta.toInt)) := if_pos hin
        have hadded := hp.added t hleft hk hprog htally hadd
        exact ⟨_, checkedAdd_some hadd, hadded.1, hadded.2.1⟩
      · have hrefused := hp.refused t hleft hk hprog htally (if_neg hout)
        exact ⟨hrefused.1, hrefused.2.1⟩

namespace CounterCommand

/-- A store whose k holds the number before the largest one. -/
def nearMax : Store :=
  Store.empty.put (Str.lit "k") (some (.string (Str.utf8 "9223372036854775806"))) none

/-- One client sends INCR twice, the other DECR. -/
def two : Fin 2 → List CounterCommand
  | 0 => [incr, incr]
  | 1 => [decr]

/-- The second INCR finds the largest number, and the DECR made its check long before. -/
def mixed : List (Fin 2 × Reading) := [0, 1, 0, 0, 0, 1].map fun i => (i, ⟨0, 0⟩)

def mixedReplies : Fin 2 → List Value
  | 0 => [.integer 9223372036854775807, .error (Str.lit "Integer overflow")]
  | 1 => [.integer 9223372036854775806]

end CounterCommand

open CounterCommand in
theorem counter_conserved_two : ∃ p : Sessions (Fin 2),
    Runs Call.run (fun _ _ => True) (sessions (Str.lit "k") two nearMax) p ∧
    (∀ i, p.Replied i (mixedReplies i)) ∧
    p.state.data[Str.lit "k"]? = some (.string (Str.utf8 "9223372036854775806")) := by
  have hruns := runs_schedule Call.run
    (passes_all Call.run mixed (sessions (Str.lit "k") two nearMax))
  have hdone : ∀ i, (schedule Call.run mixed (sessions (Str.lit "k") two nearMax)).Replied i
      (mixedReplies i) := fun | 0 => rfl | 1 => rfl
  have htext : nearMax.data[Str.lit "k"]? = some (.string (Str.lit "9223372036854775806").bytes) :=
    Store.put_data ..
  have hall := (counter_conserved (Str.lit "k") two nearMax 9223372036854775806
    (Or.inr ⟨_, htext, by decide⟩) (Store.put_expirations ..) _ hruns).1 _ hdone
  refine ⟨_, hruns, hdone, ?_⟩
  obtain ⟨-, n, hn, hdata⟩ := hall
  have hincrs : ∑ i, incr.succeeded (two i) (mixedReplies i) = 1 := by decide
  have hdecrs : ∑ i, decr.succeeded (two i) (mixedReplies i) = 1 := by decide
  rw [hincrs, hdecrs] at hn hdata
  have hvalue : n = 9223372036854775806 := Int64.toInt_inj.mp hn
  have hdisplay : Decimal.displayI64 9223372036854775806 = Str.utf8 "9223372036854775806" := by
    decide
  rw [hdata, if_neg (by decide), hvalue, hdisplay]

end FireRedis
