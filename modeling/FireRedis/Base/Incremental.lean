import Mathlib

/-!
# Incremental decoders

A decoder looks at a growing buffer and either takes one frame off its front,
asks for more input, or fails. A decoder is lawful when its frames and failures
do not change as the buffer grows, every frame takes at least `k` and at most
all of its bytes, and asking for more or failing leaves the buffer alone.
Lawful decoders do not see how the input was cut into chunks, and where they
invert an encoder they read any prefix of an encoded log as its complete frames.
-/

namespace Incremental

variable {β α ε : Type}

abbrev Decoder (β α ε : Type) := List β → Except ε (Option α) × List β

structure Lawful (k : ℕ) (d : Decoder β α ε) : Prop where
  frame : ∀ {b a}, (d b).1 = .ok (some a) → ∃ n, k ≤ n ∧ n ≤ b.length ∧
    (d b).2 = b.drop n ∧ ∀ extra, d (b ++ extra) = (.ok (some a), b.drop n ++ extra)
  fail : ∀ {b e}, (d b).1 = .error e →
    (d b).2 = b ∧ ∀ extra, d (b ++ extra) = (.error e, b ++ extra)
  more : ∀ {b}, (d b).1 = .ok none → (d b).2 = b

/-- How a run over a buffer ends: out of input with some bytes left over, or
with the decoder's failure. -/
inductive Stop (β ε : Type)
  | pending (rest : List β)
  | failed (e : ε)

/-- Decodes until the decoder asks for more or fails (`fuel` bounds the calls). -/
def drainFuel (d : Decoder β α ε) : ℕ → List β → List α × Stop β ε
  | 0, buf => ([], .pending buf)
  | fuel + 1, buf =>
    match d buf with
    | (.ok (some a), rest) => (a :: (drainFuel d fuel rest).1, (drainFuel d fuel rest).2)
    | (.ok none, rest) => ([], .pending rest)
    | (.error e, _) => ([], .failed e)

def drain (d : Decoder β α ε) (buf : List β) : List α × Stop β ε :=
  drainFuel d (buf.length + 1) buf

/-- Appends the chunks one at a time to what is left in the buffer and drains it
after each; a failure ends the run. -/
def feed (d : Decoder β α ε) (buf : List β) : List (List β) → List α × Stop β ε
  | [] => ([], .pending buf)
  | c :: cs =>
    match drain d (buf ++ c) with
    | (as, .pending rest) => (as ++ (feed d rest cs).1, (feed d rest cs).2)
    | (as, .failed e) => (as, .failed e)

section Lawful

variable {k : ℕ} {d : Decoder β α ε} (h : Lawful k d) (hk : 0 < k)
include h hk

theorem rest_lt {buf rest : List β} {a : α} (hd : d buf = (.ok (some a), rest)) :
    rest.length < buf.length := by
  obtain ⟨n, hn, hle, hrest, -⟩ := h.frame (b := buf) (a := a) (by rw [hd])
  rw [hd] at hrest
  rw [show rest = buf.drop n from hrest, List.length_drop]
  omega

omit hk in
theorem frame_append {buf rest : List β} {a : α} (hd : d buf = (.ok (some a), rest))
    (extra : List β) : d (buf ++ extra) = (.ok (some a), rest ++ extra) := by
  obtain ⟨n, -, -, hrest, hext⟩ := h.frame (b := buf) (a := a) (by rw [hd])
  rw [hd] at hrest
  rw [hext extra, show rest = buf.drop n from hrest]

/-- Induction on what is left of a buffer behind its frames. -/
theorem drain_induction {motive : List β → Prop}
    (frame : ∀ buf rest a, d buf = (.ok (some a), rest) → motive rest → motive buf)
    (more : ∀ buf, d buf = (.ok none, buf) → motive buf)
    (fail : ∀ buf e, d buf = (.error e, buf) → motive buf) (buf : List β) : motive buf := by
  have key : ∀ m (buf : List β), buf.length = m → motive buf := by
    intro m
    refine Nat.strongRecOn m (fun m ih => ?_)
    rintro buf rfl
    rcases hd : d buf with ⟨r, rest⟩
    match r with
    | .ok (some a) => exact frame buf rest a hd (ih rest.length (rest_lt h hk hd) rest rfl)
    | .ok none =>
      have hrest := h.more (b := buf) (by rw [hd])
      rw [hd] at hrest
      exact more buf (hd.trans (congrArg _ hrest))
    | .error e =>
      have hrest := (h.fail (b := buf) (e := e) (by rw [hd])).1
      rw [hd] at hrest
      exact fail buf e (hd.trans (congrArg _ hrest))
  exact key buf.length buf rfl

theorem drainFuel_eq (fuel : ℕ) (buf : List β) (hf : buf.length < fuel) :
    drainFuel d fuel buf = drain d buf := by
  induction buf using drain_induction h hk generalizing fuel with
  | frame buf rest a hd ih =>
    have hlen := rest_lt h hk hd
    obtain ⟨fuel, rfl⟩ : ∃ g, fuel = g + 1 := ⟨fuel - 1, by omega⟩
    simp only [drain, drainFuel, hd]
    rw [ih fuel (by omega), ih buf.length hlen]
  | more buf hd | fail buf e hd =>
    obtain ⟨fuel, rfl⟩ : ∃ g, fuel = g + 1 := ⟨fuel - 1, by omega⟩
    simp only [drain, drainFuel, hd]

theorem drain_frame {buf rest : List β} {a : α} (hd : d buf = (.ok (some a), rest)) :
    drain d buf = (a :: (drain d rest).1, (drain d rest).2) := by
  have he := drainFuel_eq h hk buf.length rest (rest_lt h hk hd)
  rw [drain, drainFuel, hd]
  simp only [he]

omit hk in
theorem drain_more {b : List β} (hd : (d b).1 = .ok none) :
    drain d b = ([], .pending b) := by
  have hrest := h.more hd
  rcases hb : d b with ⟨r, rest⟩
  rw [hb] at hd hrest
  simp only at hd hrest
  simp only [drain, drainFuel, hb, hd, hrest]

omit h hk in
theorem drain_fail {b : List β} {e : ε} (hd : (d b).1 = .error e) :
    drain d b = ([], .failed e) := by
  rcases hb : d b with ⟨r, rest⟩
  rw [hb] at hd
  simp only at hd
  simp only [drain, drainFuel, hb, hd]

/-- Draining a longer buffer goes on from where draining its front stopped. -/
theorem drain_append (buf extra : List β) :
    drain d (buf ++ extra) =
      match drain d buf with
      | (as, .pending rest) => (as ++ (drain d (rest ++ extra)).1, (drain d (rest ++ extra)).2)
      | (as, .failed e) => (as, .failed e) := by
  induction buf using drain_induction h hk with
  | frame buf rest a hd ih =>
    rw [drain_frame h hk (frame_append h hd extra), drain_frame h hk hd, ih]
    rcases drain d rest with ⟨as, s⟩
    cases s with
    | pending rest' => rfl
    | failed e => rfl
  | more buf hd =>
    rw [drain_more h (b := buf) (by rw [hd])]
    rfl
  | fail buf e hd =>
    have hfail := (h.fail (b := buf) (e := e) (by rw [hd])).2 extra
    rw [drain_fail (b := buf) (e := e) (by rw [hd]),
      drain_fail (b := buf ++ extra) (e := e) (by rw [hfail])]

/-- What a drain leaves over asks for more. -/
theorem more_of_pending (buf : List β) {as : List α} {rest : List β}
    (hd : drain d buf = (as, .pending rest)) : (d rest).1 = .ok none := by
  induction buf using drain_induction h hk generalizing as with
  | frame buf tail a hb ih =>
    rw [drain_frame h hk hb] at hd
    exact ih (Prod.ext rfl (Prod.mk.inj hd).2)
  | more buf hb =>
    rw [drain_more h (b := buf) (by rw [hb])] at hd
    injection hd with _ hs
    injection hs with hs
    rw [← hs, hb]
  | fail buf e hb =>
    rw [drain_fail (b := buf) (e := e) (by rw [hb])] at hd
    injection hd with _ hs
    injection hs

/-- However the input is cut into chunks, the frames, the failure and the bytes
left over are those of one drain of the whole input. -/
theorem feed_eq_drain (chunks : List (List β)) (buf : List β) (hb : (d buf).1 = .ok none) :
    feed d buf chunks = drain d (buf ++ chunks.flatten) := by
  induction chunks generalizing buf with
  | nil =>
    rw [List.flatten_nil, List.append_nil, drain_more h hb]
    rfl
  | cons c cs ih =>
    rw [List.flatten_cons, ← List.append_assoc, drain_append h hk (buf ++ c) cs.flatten, feed]
    rcases hd : drain d (buf ++ c) with ⟨as, s⟩
    cases s with
    | pending rest =>
      simp only
      rw [ih rest (more_of_pending h hk _ hd)]
    | failed e => rfl

end Lawful

/-! ### Encoded logs -/

/-- The decoder takes the encoding of each value of `P` off any buffer. -/
def Inverts (d : Decoder β α ε) (enc : α → List β) (P : α → Prop) : Prop :=
  ∀ a, P a → ∀ rest, d (enc a ++ rest) = (.ok (some a), rest)

/-- How many entries of a log have their encoding wholly within its first `n` bytes. -/
def wholeWithin (enc : α → List β) (as : List α) (n : ℕ) : ℕ :=
  (List.range as.length).countP fun i => ((as.take (i + 1)).flatMap enc).length ≤ n

theorem wholeWithin_cons (enc : α → List β) (a : α) (as : List α) (n : ℕ) :
    wholeWithin enc (a :: as) n =
      if (enc a).length ≤ n then wholeWithin enc as (n - (enc a).length) + 1 else 0 := by
  simp only [wholeWithin, List.length_cons, List.range_succ_eq_map, List.countP_cons,
    List.countP_map, Function.comp_def, Nat.succ_eq_add_one, List.take_succ_cons,
    List.flatMap_cons, List.length_append, List.take_zero, List.flatMap_nil,
    List.length_nil, Nat.add_zero, decide_eq_true_eq]
  split
  · rename_i hn
    congr 1
    refine List.countP_congr fun i _ => ?_
    simp only [decide_eq_true_eq]
    omega
  · rename_i hn
    rw [Nat.add_zero, List.countP_eq_zero]
    intro i _
    simp only [decide_eq_true_eq]
    omega

theorem wholeWithin_le (enc : α → List β) (as : List α) (n : ℕ) :
    wholeWithin enc as n ≤ as.length := by
  simpa [wholeWithin] using List.countP_le_length (l := List.range as.length)

/-- What a cut after `n` bytes leaves of the entry it falls in. -/
def torn (enc : α → List β) (as : List α) (n : ℕ) : List β :=
  ((as.drop (wholeWithin enc as n)).flatMap enc).take
    (n - ((as.take (wholeWithin enc as n)).flatMap enc).length)

theorem whole_length_le (enc : α → List β) (as : List α) (n : ℕ) :
    ((as.take (wholeWithin enc as n)).flatMap enc).length ≤ n := by
  induction as generalizing n with
  | nil => simp
  | cons a as ih =>
    rw [wholeWithin_cons]
    split
    · rename_i hn
      have htail := ih (n - (enc a).length)
      rw [List.take_succ_cons, List.flatMap_cons, List.length_append]
      omega
    · exact Nat.zero_le n

theorem whole_append_torn (enc : α → List β) (as : List α) (n : ℕ) :
    (as.take (wholeWithin enc as n)).flatMap enc ++ torn enc as n = (as.flatMap enc).take n := by
  have hsplit : as.flatMap enc = (as.take (wholeWithin enc as n)).flatMap enc ++
      (as.drop (wholeWithin enc as n)).flatMap enc := by
    rw [← List.flatMap_append, List.take_append_drop]
  rw [hsplit, List.take_append, List.take_of_length_le (whole_length_le enc as n), torn]

section Encoded

variable {k : ℕ} {d : Decoder β α ε} {enc : α → List β} {P : α → Prop}
variable (h : Lawful k d) (hk : 0 < k) (hi : Inverts d enc P)
include h hk hi

theorem drain_encoded (as : List α) (hP : ∀ a ∈ as, P a) (rest : List β) :
    drain d (as.flatMap enc ++ rest) = (as ++ (drain d rest).1, (drain d rest).2) := by
  induction as with
  | nil => rfl
  | cons a as ih =>
    have ha := hi a (hP a (List.mem_cons_self ..)) (as.flatMap enc ++ rest)
    rw [List.flatMap_cons, List.append_assoc, drain_frame h hk ha,
      ih fun b hb => hP b (List.mem_cons_of_mem _ hb)]
    rfl

omit hk in
/-- A strict prefix of an encoding is neither a shorter frame nor a failure. -/
theorem more_of_torn (a : α) (ha : P a) (torn extra : List β) (he : torn ++ extra = enc a)
    (hne : extra ≠ []) : (d torn).1 = .ok none := by
  have hall := hi a ha []
  rw [List.append_nil, ← he] at hall
  rcases hd : d torn with ⟨r, rest⟩
  match r with
  | .ok (some b) =>
    have hcut := congrArg Prod.snd ((frame_append h hd extra).symm.trans hall)
    exact absurd (List.append_eq_nil_iff.mp hcut).2 hne
  | .ok none => rfl
  | .error e =>
    have hcut := congrArg Prod.fst
      (((h.fail (b := torn) (e := e) (by rw [hd])).2 extra).symm.trans hall)
    cases hcut

/-- A log cut anywhere reads as its complete entries; the torn tail is left over. -/
theorem drain_cut (as : List α) (hP : ∀ a ∈ as, P a) (n : ℕ) (hd : (d []).1 = .ok none) :
    ∃ rest, drain d ((as.flatMap enc).take n) =
      (as.take (wholeWithin enc as n), .pending rest) := by
  induction as generalizing n with
  | nil =>
    refine ⟨[], ?_⟩
    simp [wholeWithin, drain_more h hd]
  | cons a as ih =>
    have ha := hP a (List.mem_cons_self ..)
    rw [List.flatMap_cons, wholeWithin_cons]
    split
    · rename_i hn
      obtain ⟨rest, hrest⟩ := ih (fun b hb => hP b (List.mem_cons_of_mem _ hb))
        (n - (enc a).length)
      refine ⟨rest, ?_⟩
      rw [List.take_append, List.take_of_length_le hn, drain_frame h hk (hi a ha _), hrest]
      rfl
    · rename_i hn
      refine ⟨(enc a).take n, ?_⟩
      have hne : (enc a).drop n ≠ [] := by
        intro he
        have hlen := congrArg List.length he
        simp only [List.length_drop, List.length_nil] at hlen
        omega
      rw [List.take_append_of_le_length (by omega), List.take_zero,
        drain_more h (more_of_torn h hi a ha _ _ (List.take_append_drop n (enc a)) hne)]

theorem drain_torn (as : List α) (hP : ∀ a ∈ as, P a) (n : ℕ) (hd : (d []).1 = .ok none) :
    ∃ rest, drain d (torn enc as n) = ([], .pending rest) := by
  obtain ⟨rest, hcut⟩ := drain_cut h hk hi as hP n hd
  have hwhole : ∀ a ∈ as.take (wholeWithin enc as n), P a := fun a ha =>
    hP a (List.mem_of_mem_take ha)
  rw [← whole_append_torn, drain_encoded h hk hi _ hwhole] at hcut
  obtain ⟨hframes, hstop⟩ := Prod.mk.inj hcut
  refine ⟨rest, Prod.ext ?_ hstop⟩
  exact List.append_cancel_left (hframes.trans (List.append_nil _).symm)

end Encoded

end Incremental
