import Mathlib

/-!
# UTF-8 text as byte strings

A text value is a byte string that is well-formed UTF-8. The scanner reads one
chunk at a time: either a complete sequence of one scalar value, or the longest
ill-formed part that is a prefix of some sequence (at least one byte). Checked
decoding accepts exactly the byte strings without an ill-formed chunk; lossy
decoding replaces each ill-formed chunk by U+FFFD.
-/

namespace Utf8

def isCont (b : UInt8) : Bool := 0x80 ≤ b && b < 0xC0

/-- Length of a sequence with lead byte `b`; 0 when `b` leads none. -/
def width (b : UInt8) : ℕ :=
  if b < 0x80 then 1
  else if b < 0xC2 then 0
  else if b < 0xE0 then 2
  else if b < 0xF0 then 3
  else if b < 0xF5 then 4
  else 0

-- The second byte excludes overlong forms, surrogates and values past U+10FFFF.
def secondOfThree (b c : UInt8) : Bool :=
  if b = 0xE0 then 0xA0 ≤ c && c < 0xC0
  else if b = 0xED then 0x80 ≤ c && c < 0xA0
  else isCont c

def secondOfFour (b c : UInt8) : Bool :=
  if b = 0xF0 then 0x90 ≤ c && c < 0xC0
  else if b = 0xF4 then 0x80 ≤ c && c < 0x90
  else isCont c

def contRun : ℕ → List UInt8 → ℕ
  | 0, _ => 0
  | _, [] => 0
  | k + 1, c :: rest => if isCont c then contRun k rest + 1 else 0

/-- One chunk led by `b`: whether it is a complete sequence, and how many bytes
of `rest` belong to it. -/
def chunk (b : UInt8) (rest : List UInt8) : Bool × ℕ :=
  match width b with
  | 1 => (true, 0)
  | 2 => (contRun 1 rest == 1, contRun 1 rest)
  | 3 => match rest with
    | [] => (false, 0)
    | c :: cs => if secondOfThree b c then (contRun 1 cs == 1, contRun 1 cs + 1) else (false, 0)
  | 4 => match rest with
    | [] => (false, 0)
    | c :: cs => if secondOfFour b c then (contRun 2 cs == 2, contRun 2 cs + 1) else (false, 0)
  | _ => (false, 0)

def chunksFuel : ℕ → List UInt8 → List (Bool × List UInt8)
  | 0, _ => []
  | _, [] => []
  | fuel + 1, b :: rest =>
    ((chunk b rest).1, b :: rest.take (chunk b rest).2) ::
      chunksFuel fuel (rest.drop (chunk b rest).2)

def chunks (bs : List UInt8) : List (Bool × List UInt8) := chunksFuel bs.length bs

def Valid (bs : List UInt8) : Prop := ∀ c ∈ chunks bs, c.1 = true

instance (bs : List UInt8) : Decidable (Valid bs) :=
  inferInstanceAs (Decidable (∀ c ∈ chunks bs, c.1 = true))

def replacement : List UInt8 := [0xEF, 0xBF, 0xBD]

def shown (c : Bool × List UInt8) : List UInt8 := if c.1 then c.2 else replacement

def lossy (bs : List UInt8) : List UInt8 := (chunks bs).flatMap shown

/-! ### The scanner -/

theorem contRun_le (k : ℕ) (rest : List UInt8) :
    contRun k rest ≤ k ∧ contRun k rest ≤ rest.length := by
  induction k generalizing rest with
  | zero => simp [contRun]
  | succ k ih =>
    cases rest with
    | nil => simp [contRun]
    | cons c rest =>
      have h := ih rest
      simp only [contRun, List.length_cons]
      split <;> omega

theorem chunk_le (b : UInt8) (rest : List UInt8) : (chunk b rest).2 ≤ rest.length := by
  unfold chunk
  split
  · simp
  · exact (contRun_le 1 rest).2
  · cases rest with
    | nil => simp
    | cons c cs =>
      have h := (contRun_le 1 cs).2
      dsimp only
      split <;> simp only [List.length_cons] <;> omega
  · cases rest with
    | nil => simp
    | cons c cs =>
      have h := (contRun_le 2 cs).2
      dsimp only
      split <;> simp only [List.length_cons] <;> omega
  · simp

theorem chunksFuel_eq (fuel : ℕ) (bs : List UInt8) (h : bs.length ≤ fuel) :
    chunksFuel fuel bs = chunks bs := by
  have key : ∀ k (bs : List UInt8), bs.length = k → ∀ f, k ≤ f →
      chunksFuel f bs = chunksFuel k bs := by
    intro k
    refine Nat.strongRecOn k (fun k ih => ?_)
    intro bs hk f hf
    cases bs with
    | nil =>
      cases f <;> cases k <;> rfl
    | cons b rest =>
      simp only [List.length_cons] at hk
      obtain ⟨f, rfl⟩ : ∃ g, f = g + 1 := ⟨f - 1, by omega⟩
      obtain rfl : k = rest.length + 1 := hk.symm
      have hd : (rest.drop (chunk b rest).2).length ≤ rest.length := by
        rw [List.length_drop]; omega
      simp only [chunksFuel]
      rw [ih _ (by omega) _ rfl f (by omega), ih _ (by omega) _ rfl rest.length hd]
  exact key bs.length bs rfl fuel h

@[simp] theorem chunks_nil : chunks [] = [] := rfl

theorem chunks_cons (b : UInt8) (rest : List UInt8) :
    chunks (b :: rest) = ((chunk b rest).1, b :: rest.take (chunk b rest).2) ::
      chunks (rest.drop (chunk b rest).2) := by
  show chunksFuel (rest.length + 1) (b :: rest) = _
  simp only [chunksFuel]
  rw [chunksFuel_eq]
  rw [List.length_drop]
  omega

theorem chunks_induction {P : List UInt8 → Prop} (nil : P [])
    (cons : ∀ b rest, P (rest.drop (chunk b rest).2) → P (b :: rest)) (bs : List UInt8) :
    P bs := by
  have key : ∀ k (bs : List UInt8), bs.length = k → P bs := by
    intro k
    refine Nat.strongRecOn k (fun k ih => ?_)
    intro bs hk
    cases bs with
    | nil => exact nil
    | cons b rest =>
      simp only [List.length_cons] at hk
      exact cons b rest (ih _ (by rw [List.length_drop]; omega) _ rfl)
  exact key bs.length bs rfl

theorem contRun_take (k : ℕ) (rest more : List UInt8) (h : contRun k rest = k) :
    contRun k (rest.take k ++ more) = k := by
  induction k generalizing rest with
  | zero => simp [contRun]
  | succ k ih =>
    cases rest with
    | nil => simp [contRun] at h
    | cons c rest =>
      simp only [contRun] at h
      split at h
      · rename_i hc
        simp only [List.take_succ_cons, List.cons_append, contRun, hc, if_true]
        rw [ih rest (by omega)]
      · omega

/-- A complete chunk does not depend on what follows it. -/
theorem chunk_local (b : UInt8) (rest more : List UInt8) (n : ℕ)
    (h : chunk b rest = (true, n)) : chunk b (rest.take n ++ more) = (true, n) := by
  unfold chunk at h
  split at h
  · rename_i hw
    obtain ⟨-, rfl⟩ := Prod.mk.inj h
    simp [chunk, hw]
  · rename_i hw
    simp only [Prod.mk.injEq, beq_iff_eq] at h
    obtain ⟨h1, rfl⟩ := h
    simp [chunk, hw, h1, contRun_take 1 rest more h1]
  · rename_i hw
    cases rest with
    | nil => simp at h
    | cons c cs =>
      dsimp only at h
      split at h
      · rename_i hc
        simp only [Prod.mk.injEq, beq_iff_eq] at h
        obtain ⟨h1, rfl⟩ := h
        simp [chunk, hw, hc, h1, contRun_take 1 cs more h1]
      · simp at h
  · rename_i hw
    cases rest with
    | nil => simp at h
    | cons c cs =>
      dsimp only at h
      split at h
      · rename_i hc
        simp only [Prod.mk.injEq, beq_iff_eq] at h
        obtain ⟨h1, rfl⟩ := h
        simp [chunk, hw, hc, h1, contRun_take 2 cs more h1]
      · simp at h
  · simp at h

theorem chunks_flatten (bs : List UInt8) : ((chunks bs).flatMap Prod.snd) = bs := by
  induction bs using chunks_induction with
  | nil => rfl
  | cons b rest ih =>
    rw [chunks_cons, List.flatMap_cons, ih, List.cons_append, List.take_append_drop]

/-! ### Well-formed text -/

@[simp] theorem valid_nil : Valid [] := by simp [Valid]

theorem valid_cons (b : UInt8) (rest : List UInt8) :
    Valid (b :: rest) ↔
      (chunk b rest).1 = true ∧ Valid (rest.drop (chunk b rest).2) := by
  simp [Valid, chunks_cons]

theorem valid_of_chunk {b : UInt8} {c m : List UInt8}
    (h : chunk b (c ++ m) = (true, c.length)) (hm : Valid m) :
    Valid (b :: (c ++ m)) := by
  rw [valid_cons, h]
  simpa using hm

theorem valid_chunk {b : UInt8} {rest m : List UInt8} (h : (chunk b rest).1 = true) (hm : Valid m) :
    Valid (b :: (rest.take (chunk b rest).2 ++ m)) := by
  have hn := chunk_le b rest
  have hl := chunk_local b rest m (chunk b rest).2 (Prod.ext h rfl)
  have hlen : (rest.take (chunk b rest).2).length = (chunk b rest).2 := by
    rw [List.length_take]
    omega
  exact valid_of_chunk (by rw [hl, hlen]) hm

theorem valid_append (as bs : List UInt8) (ha : Valid as) (hb : Valid bs) :
    Valid (as ++ bs) := by
  induction as using chunks_induction with
  | nil => exact hb
  | cons b rest ih =>
    rw [valid_cons] at ha
    have hv := valid_chunk ha.1 (ih ha.2)
    rwa [← List.append_assoc, List.take_append_drop] at hv

theorem valid_shown (b : UInt8) (rest : List UInt8) :
    Valid (shown ((chunk b rest).1, b :: rest.take (chunk b rest).2)) := by
  by_cases h : (chunk b rest).1 = true
  · have hv := valid_chunk h valid_nil
    simpa [shown, h] using hv
  · have hr : Valid replacement := by decide
    simpa [shown, h] using hr

theorem valid_lossy (bs : List UInt8) : Valid (lossy bs) := by
  induction bs using chunks_induction with
  | nil => exact valid_nil
  | cons b rest ih =>
    unfold lossy at ih ⊢
    rw [chunks_cons, List.flatMap_cons]
    exact valid_append _ _ (valid_shown b rest) ih

theorem lossy_of_valid (bs : List UInt8) (h : Valid bs) : lossy bs = bs := by
  have hs : ∀ c ∈ chunks bs, shown c = c.2 := fun c hc => by simp [shown, h c hc]
  unfold lossy
  rw [List.flatMap_congr hs]
  exact chunks_flatten bs

theorem valid_of_ascii (bs : List UInt8) (h : ∀ b ∈ bs, b < 0x80) : Valid bs := by
  induction bs with
  | nil => exact valid_nil
  | cons b rest ih =>
    have hb : chunk b rest = (true, 0) := by
      simp [chunk, width, h b (List.mem_cons_self ..)]
    rw [valid_cons, hb]
    exact ⟨rfl, ih fun c hc => h c (List.mem_cons_of_mem _ hc)⟩

/-! ### ASCII bytes inside text -/

/-- A replacement character is not ASCII. -/
theorem valid_of_lossy_ascii {bs : List UInt8} (h : ∀ b ∈ lossy bs, b < 0x80) : Valid bs := by
  intro c hc
  by_contra hbad
  have hmem : 0xEF ∈ lossy bs := List.mem_flatMap.mpr ⟨c, hc, by simp [shown, hbad, replacement]⟩
  exact absurd (h _ hmem) (by decide)

theorem isCont_ge {b : UInt8} (h : isCont b = true) : 0x80 ≤ b := by
  simp only [isCont, Bool.and_eq_true, decide_eq_true_eq] at h
  exact h.1

theorem contRun_take_ge (k : ℕ) (rest : List UInt8) :
    ∀ c ∈ rest.take (contRun k rest), 0x80 ≤ c := by
  induction k generalizing rest with
  | zero => simp [contRun]
  | succ k ih =>
    cases rest with
    | nil => simp [contRun]
    | cons c rest =>
      simp only [contRun]
      split
      · rename_i hc
        intro d hd
        simp only [List.take_succ_cons, List.mem_cons] at hd
        rcases hd with rfl | hd
        · exact isCont_ge hc
        · exact ih rest d hd
      · simp

theorem secondOfThree_ge {b c : UInt8} (h : secondOfThree b c = true) : 0x80 ≤ c := by
  unfold secondOfThree at h
  split at h
  · simp only [Bool.and_eq_true, decide_eq_true_eq, UInt8.le_iff_toNat_le] at h ⊢
    exact le_trans (by decide) h.1
  · split at h
    · simp only [Bool.and_eq_true, decide_eq_true_eq] at h
      exact h.1
    · exact isCont_ge h

theorem secondOfFour_ge {b c : UInt8} (h : secondOfFour b c = true) : 0x80 ≤ c := by
  unfold secondOfFour at h
  split at h
  · simp only [Bool.and_eq_true, decide_eq_true_eq, UInt8.le_iff_toNat_le] at h ⊢
    exact le_trans (by decide) h.1
  · split at h
    · simp only [Bool.and_eq_true, decide_eq_true_eq] at h
      exact h.1
    · exact isCont_ge h

theorem chunk_tail_ge (b : UInt8) (rest : List UInt8) :
    ∀ c ∈ rest.take (chunk b rest).2, 0x80 ≤ c := by
  unfold chunk
  split
  · simp
  · exact contRun_take_ge 1 rest
  · cases rest with
    | nil => simp
    | cons c cs =>
      dsimp only
      split
      · rename_i hc
        intro d hd
        simp only [List.take_succ_cons, List.mem_cons] at hd
        rcases hd with rfl | hd
        · exact secondOfThree_ge hc
        · exact contRun_take_ge 1 cs d hd
      · simp
  · cases rest with
    | nil => simp
    | cons c cs =>
      dsimp only
      split
      · rename_i hc
        intro d hd
        simp only [List.take_succ_cons, List.mem_cons] at hd
        rcases hd with rfl | hd
        · exact secondOfFour_ge hc
        · exact contRun_take_ge 2 cs d hd
      · simp
  · simp

theorem chunk_ascii {b : UInt8} (rest : List UInt8) (h : b < 0x80) :
    chunk b rest = (true, 0) := by
  simp [chunk, width, h]

theorem lossy_cons (b : UInt8) (rest : List UInt8) :
    lossy (b :: rest) = shown ((chunk b rest).1, b :: rest.take (chunk b rest).2) ++
      lossy (rest.drop (chunk b rest).2) := by
  simp only [lossy, chunks_cons, List.flatMap_cons]

/-- What lossy decoding shows of a chunk is one ASCII byte, taken over as it
is, or has no ASCII byte. -/
theorem shown_ascii (b : UInt8) (rest : List UInt8) :
    (b < 0x80 ∧ shown ((chunk b rest).1, b :: rest.take (chunk b rest).2) = [b]) ∨
      ∀ c ∈ shown ((chunk b rest).1, b :: rest.take (chunk b rest).2), 0x80 ≤ c := by
  by_cases hb : b < 0x80
  · left
    rw [chunk_ascii rest hb]
    exact ⟨hb, rfl⟩
  · right
    intro c hc
    unfold shown at hc
    split at hc
    · rcases List.mem_cons.mp hc with rfl | hc
      · exact UInt8.not_lt.mp hb
      · exact chunk_tail_ge b rest c hc
    · rcases List.mem_cons.mp hc with rfl | hc
      · decide
      · rcases List.mem_cons.mp hc with rfl | hc
        · decide
        · rw [List.mem_singleton.mp hc]
          decide

theorem lossy_head {y : UInt8} (hy : y < 0x80) (bs : List UInt8)
    (h : (lossy bs).head? = some y) : bs.head? = some y := by
  cases bs with
  | nil => simp [lossy] at h
  | cons b rest =>
    rw [lossy_cons] at h
    rcases shown_ascii b rest with ⟨-, hs⟩ | hs
    · rw [hs] at h
      exact h
    · have hne : shown ((chunk b rest).1, b :: rest.take (chunk b rest).2) ≠ [] := by
        unfold shown
        split <;> simp [replacement]
      rw [List.head?_append_of_ne_nil _ hne] at h
      have hge := hs y (List.mem_of_mem_head? h)
      exact absurd hy (UInt8.not_lt.mpr hge)

theorem pair_of_append {x y : UInt8} {front bs : List UInt8} (hx : x ∉ front)
    (h : [x, y] <:+: front ++ bs) : [x, y] <:+: bs := by
  rcases List.infix_append_iff.mp h with h | h | ⟨t, u, htu, ht, hu⟩
  · exact absurd (h.subset (List.mem_cons_self ..)) hx
  · exact h
  · cases t with
    | nil =>
      rw [List.nil_append] at htu
      rw [htu]
      exact hu.isInfix
    | cons a t =>
      rw [List.cons_append] at htu
      obtain ⟨rfl, -⟩ := List.cons.inj htu
      exact absurd (ht.subset (List.mem_cons_self ..)) hx

/-- Lossy decoding puts no two ASCII bytes next to each other that were not so
in the input. -/
theorem lossy_pair {x y : UInt8} (hx : x < 0x80) (hy : y < 0x80) (bs : List UInt8)
    (h : [x, y] <:+: lossy bs) : [x, y] <:+: bs := by
  induction bs using chunks_induction with
  | nil => simp [lossy] at h
  | cons b rest ih =>
    rw [lossy_cons] at h
    rcases shown_ascii b rest with ⟨hb, hs⟩ | hs
    · rw [hs, chunk_ascii rest hb, List.drop_zero, List.singleton_append,
        List.infix_cons_iff] at h
      rw [chunk_ascii rest hb, List.drop_zero] at ih
      rw [List.infix_cons_iff]
      rcases h with h | h
      · obtain ⟨rfl, t, ht⟩ := List.cons_prefix_cons.mp h
        have hh := lossy_head hy rest (by rw [← ht]; rfl)
        cases rest with
        | nil => simp at hh
        | cons c rest =>
          obtain rfl : c = y := by simpa using hh
          exact Or.inl ⟨rest, rfl⟩
      · exact Or.inr (ih h)
    · have hd : [x, y] <:+: lossy (rest.drop (chunk b rest).2) :=
        pair_of_append (fun hmem => UInt8.not_lt.mpr (hs x hmem) hx) h
      exact (ih hd).trans
        ((List.drop_suffix _ _).isInfix.trans (List.suffix_cons b rest).isInfix)

theorem pair_lossy {x y : UInt8} (hx : x < 0x80) (hy : y < 0x80) (bs : List UInt8)
    (h : [x, y] <:+: bs) : [x, y] <:+: lossy bs := by
  induction bs using chunks_induction with
  | nil => simp at h
  | cons b rest ih =>
    rw [lossy_cons]
    rcases List.infix_cons_iff.mp h with h | h
    · obtain ⟨rfl, t, rfl⟩ := List.cons_prefix_cons.mp h
      refine ⟨[], lossy t, ?_⟩
      rw [chunk_ascii _ hx, List.drop_zero, List.singleton_append, lossy_cons, chunk_ascii _ hy]
      rfl
    · -- The bytes of `rest` that belong to the chunk are not ASCII.
      have hnot : x ∉ rest.take (chunk b rest).2 := fun hmem =>
        UInt8.not_lt.mpr (chunk_tail_ge b rest x hmem) hx
      rw [← List.take_append_drop (chunk b rest).2 rest] at h
      exact (ih (pair_of_append hnot h)).trans (List.suffix_append _ _).isInfix

end Utf8
