import FireRedis.Base.Reader

/-!
# What a reader accepts and where it traps

A format says which bytes encode a value, and before which rest of a buffer
reading ends in a trap. `Meets` ties a reader to a format; its rules follow the
way readers are put together, so the format of a reader is put together from
the formats of its parts.
-/

structure Format (α : Type) where
  code : Bytes → α → Prop
  /-- The number of bytes before, and all bytes that follow. -/
  trap : ℕ → Bytes → Prop

namespace Format

variable {α β γ : Type}

def pure (a : α) : Format α := ⟨fun enc b => enc = [] ∧ b = a, fun _ _ => False⟩

/-- Nothing is encoded. -/
def none : Format α := ⟨fun _ _ => False, fun _ _ => False⟩

/-- Reading goes on exactly if `p` holds. -/
def require (p : Prop) : Format Unit := ⟨fun enc _ => enc = [] ∧ p, fun _ _ => ¬ p⟩

def byte : Format UInt8 := ⟨fun enc b => enc = [b], fun _ _ => False⟩

/-- A byte that is read without a check. -/
def mustByte : Format UInt8 := ⟨fun enc b => enc = [b], fun _ tail => tail = []⟩

def bytes (n : ℕ) : Format Bytes := ⟨fun enc bs => enc = bs ∧ bs.length = n, fun _ _ => False⟩

def bind (φ : Format α) (ψ : α → Format β) : Format β where
  code enc b := ∃ front rest a, enc = front ++ rest ∧ φ.code front a ∧ (ψ a).code rest b
  trap pos tail := φ.trap pos tail ∨
    ∃ front rest a, tail = front ++ rest ∧ φ.code front a ∧ (ψ a).trap (pos + front.length) rest

/-- The same bytes, whatever they encode. -/
def drop (φ : Format α) : Format Unit := ⟨fun enc _ => ∃ a, φ.code enc a, φ.trap⟩

/-- One encoding after the other, `n` of them. -/
def times (φ : Format α) (n : ℕ) : Format Unit where
  code enc _ := ∃ encs : List Bytes, encs.length = n ∧ (∀ e ∈ encs, ∃ a, φ.code e a) ∧
    enc = encs.flatten
  trap pos tail := ∃ (encs : List Bytes) (rest : Bytes), encs.length < n ∧
    (∀ e ∈ encs, ∃ a, φ.code e a) ∧ tail = encs.flatten ++ rest ∧
    φ.trap (pos + encs.flatten.length) rest

theorem times_code_succ (φ : Format α) (n : ℕ) (enc : Bytes) (u : Unit) :
    (φ.times (n + 1)).code enc u ↔ (φ.bind fun _ => φ.times n).code enc u := by
  constructor
  · rintro ⟨encs, hlen, hencs, rfl⟩
    cases encs with
    | nil => cases hlen
    | cons e encs =>
      obtain ⟨a, ha⟩ := hencs e (List.mem_cons_self ..)
      exact ⟨e, encs.flatten, a, rfl, ha, encs, Nat.succ.inj hlen,
        fun e' he' => hencs e' (List.mem_cons_of_mem _ he'), rfl⟩
  · rintro ⟨e, rest, a, rfl, ha, encs, hlen, hencs, rfl⟩
    refine ⟨e :: encs, congrArg Nat.succ hlen, ?_, rfl⟩
    exact List.forall_mem_cons.mpr ⟨⟨a, ha⟩, hencs⟩

theorem times_trap_succ (φ : Format α) (n pos : ℕ) (tail : Bytes) :
    (φ.times (n + 1)).trap pos tail ↔ (φ.bind fun _ => φ.times n).trap pos tail := by
  constructor
  · rintro ⟨encs, rest, hlen, hencs, rfl, htrap⟩
    cases encs with
    | nil => exact Or.inl htrap
    | cons e encs =>
      obtain ⟨a, ha⟩ := hencs e (List.mem_cons_self ..)
      refine Or.inr ⟨e, encs.flatten ++ rest, a, ?_, ha, encs, rest, Nat.lt_of_succ_lt_succ hlen,
        fun e' he' => hencs e' (List.mem_cons_of_mem _ he'), rfl, ?_⟩
      · rw [List.flatten_cons, List.append_assoc]
      · rwa [List.flatten_cons, List.length_append, ← Nat.add_assoc] at htrap
  · rintro (htrap | ⟨e, _, a, rfl, ha, encs, rest, hlen, hencs, rfl, htrap⟩)
    · exact ⟨[], tail, Nat.succ_pos n, nofun, rfl, htrap⟩
    · refine ⟨e :: encs, rest, Nat.succ_lt_succ hlen, ?_, ?_, ?_⟩
      · exact List.forall_mem_cons.mpr ⟨⟨a, ha⟩, hencs⟩
      · rw [List.flatten_cons, List.append_assoc]
      · rwa [List.flatten_cons, List.length_append, ← Nat.add_assoc]

end Format

namespace Reader

variable {ε α β γ δ : Type}

/-- In buffers of at most `bound` bytes, the reader gives a value that looks
like `b` where an encoding of `b` stands, and nowhere else; it ends in an error
of `bad` exactly where the format traps. -/
structure Meets (bound : ℕ) (bad : ε → Prop) (view : α → β) (m : Reader ε α) (φ : Format β) :
    Prop where
  reads : ∀ (front enc rest : Bytes) (b : β), (front ++ enc ++ rest).length ≤ bound →
    φ.code enc b → ∃ a, view a = b ∧
      m.runAt (front ++ enc ++ rest) front.length = .ok (a, front.length + enc.length)
  sound : ∀ (front tail : Bytes) (a : α) (pos : ℕ), (front ++ tail).length ≤ bound →
    m.runAt (front ++ tail) front.length = .ok (a, pos) → ∃ enc rest, tail = enc ++ rest ∧
      φ.code enc (view a) ∧ pos = front.length + enc.length
  traps : ∀ front tail : Bytes, (front ++ tail).length ≤ bound →
    ((∃ e, bad e ∧ m.runAt (front ++ tail) front.length = .error e) ↔ φ.trap front.length tail)

namespace Meets

variable {bound : ℕ} {bad : ε → Prop} {view : α → β} {m : Reader ε α} {φ : Format β}

theorem pure (view : α → β) (a : α) :
    Meets bound bad view (Pure.pure a : Reader ε α) (.pure (view a)) where
  reads := by
    rintro front enc rest b - ⟨rfl, rfl⟩
    exact ⟨a, rfl, by rw [List.append_nil]; rfl⟩
  sound front tail a' pos _ h := by
    obtain ⟨rfl, rfl⟩ := Prod.mk.inj (Except.ok.inj h)
    exact ⟨[], tail, rfl, ⟨rfl, rfl⟩, rfl⟩
  traps front tail _ := by
    refine ⟨?_, False.elim⟩
    rintro ⟨e, -, h⟩
    cases h

theorem fail {e : ε} (he : ¬ bad e) :
    Meets bound bad view (Reader.fail e : Reader ε α) (.none : Format β) where
  reads _ _ _ _ _ h := h.elim
  sound _ _ _ _ _ h := by cases h
  traps front tail _ := by
    refine ⟨fun ⟨e', hbad, h⟩ => ?_, False.elim⟩
    obtain rfl : e = e' := Except.error.inj h
    exact he hbad

theorem bind {f : α → Reader ε γ} {view' : γ → δ} {ψ : β → Format δ}
    (hm : Meets bound bad view m φ) (hf : ∀ a, Meets bound bad view' (f a) (ψ (view a))) :
    Meets bound bad view' (m >>= f) (φ.bind ψ) where
  reads := by
    rintro front enc rest d hlen ⟨e₁, e₂, b, rfl, hcode, hrest⟩
    have hbuf : front ++ (e₁ ++ e₂) ++ rest = front ++ e₁ ++ (e₂ ++ rest) := by
      simp only [List.append_assoc]
    rw [hbuf] at hlen ⊢
    obtain ⟨a, rfl, hrun⟩ := hm.reads front e₁ (e₂ ++ rest) b hlen hcode
    have hlen' : (front ++ e₁ ++ e₂ ++ rest).length ≤ bound := by rwa [List.append_assoc _ e₂]
    obtain ⟨c, hc, hnext⟩ := (hf a).reads (front ++ e₁) e₂ rest d hlen' hrest
    rw [List.append_assoc _ e₂, List.length_append] at hnext
    refine ⟨c, hc, ?_⟩
    rw [runAt_bind, hrun]
    simp only [hnext, List.length_append, Nat.add_assoc]
  sound := by
    intro front tail c pos hlen h
    rw [runAt_bind] at h
    cases hrun : m.runAt (front ++ tail) front.length with
    | error e =>
      rw [hrun] at h
      cases h
    | ok p =>
      obtain ⟨a, pos'⟩ := p
      obtain ⟨e₁, rest, rfl, hcode, rfl⟩ := hm.sound front tail a pos' hlen hrun
      rw [hrun, ← List.append_assoc, ← List.length_append] at h
      rw [← List.append_assoc] at hlen
      obtain ⟨e₂, rest, rfl, hrest, rfl⟩ := (hf a).sound (front ++ e₁) rest c pos hlen h
      refine ⟨e₁ ++ e₂, rest, (List.append_assoc ..).symm, ⟨e₁, e₂, view a, rfl, hcode, hrest⟩, ?_⟩
      rw [List.length_append, List.length_append, Nat.add_assoc]
  traps := by
    intro front tail hlen
    rw [runAt_bind]
    constructor
    · rintro ⟨e, hbad, h⟩
      cases hrun : m.runAt (front ++ tail) front.length with
      | error e' =>
        rw [hrun] at h
        obtain rfl : e' = e := Except.error.inj h
        exact Or.inl ((hm.traps front tail hlen).mp ⟨e', hbad, hrun⟩)
      | ok p =>
        obtain ⟨a, pos'⟩ := p
        obtain ⟨enc, rest, rfl, hcode, rfl⟩ := hm.sound front tail a pos' hlen hrun
        rw [hrun, ← List.append_assoc, ← List.length_append] at h
        rw [← List.append_assoc] at hlen
        have htrap := ((hf a).traps (front ++ enc) rest hlen).mp ⟨e, hbad, h⟩
        rw [List.length_append] at htrap
        exact Or.inr ⟨enc, rest, view a, rfl, hcode, htrap⟩
    · rintro (htrap | ⟨enc, rest, b, rfl, hcode, htrap⟩)
      · obtain ⟨e, hbad, hrun⟩ := (hm.traps front tail hlen).mpr htrap
        exact ⟨e, hbad, by rw [hrun]⟩
      · rw [← List.append_assoc] at hlen ⊢
        obtain ⟨a, rfl, hrun⟩ := hm.reads front enc rest b hlen hcode
        rw [← List.length_append] at htrap
        obtain ⟨e, hbad, hnext⟩ := ((hf a).traps (front ++ enc) rest hlen).mpr htrap
        rw [List.length_append] at hnext
        exact ⟨e, hbad, by rw [hrun]; exact hnext⟩

/-- The value is passed on as something that looks the same. -/
theorem returning {g : α → γ} {view' : γ → β} (hm : Meets bound bad view m φ)
    (hg : ∀ a, view' (g a) = view a) :
    Meets bound bad view' (m >>= fun a => Pure.pure (g a)) φ where
  reads front enc rest b hlen hcode := by
    obtain ⟨a, rfl, hrun⟩ := hm.reads front enc rest b hlen hcode
    exact ⟨g a, hg a, by rw [runAt_bind, hrun]; rfl⟩
  sound front tail c pos hlen h := by
    rw [runAt_bind] at h
    cases hrun : m.runAt (front ++ tail) front.length with
    | error e =>
      rw [hrun] at h
      cases h
    | ok p =>
      rw [hrun] at h
      obtain ⟨rfl, rfl⟩ := Prod.mk.inj (Except.ok.inj h)
      rw [hg]
      exact hm.sound front tail p.1 p.2 hlen hrun
  traps front tail hlen := by
    rw [← hm.traps front tail hlen, runAt_bind]
    cases m.runAt (front ++ tail) front.length with
    | error e =>
      constructor
      · rintro ⟨e', hbad, h⟩
        exact ⟨e', hbad, congrArg Except.error (Except.error.inj h)⟩
      · rintro ⟨e', hbad, h⟩
        exact ⟨e', hbad, congrArg Except.error (Except.error.inj h)⟩
    | ok p =>
      constructor
      · rintro ⟨e, -, h⟩
        cases h
      · rintro ⟨e, -, h⟩
        cases h

theorem drop (hm : Meets bound bad view m φ) :
    Meets bound bad (fun _ => ()) m φ.drop where
  reads front enc rest u hlen hcode := by
    obtain ⟨b, hb⟩ := hcode
    obtain ⟨a, -, hrun⟩ := hm.reads front enc rest b hlen hb
    exact ⟨a, rfl, hrun⟩
  sound front tail a pos hlen h := by
    obtain ⟨enc, rest, htail, hcode, hpos⟩ := hm.sound front tail a pos hlen h
    exact ⟨enc, rest, htail, ⟨view a, hcode⟩, hpos⟩
  traps := hm.traps

theorem congr {ψ : Format β} (hm : Meets bound bad view m φ)
    (hcode : ∀ enc b, φ.code enc b ↔ ψ.code enc b)
    (htrap : ∀ pos tail, φ.trap pos tail ↔ ψ.trap pos tail) : Meets bound bad view m ψ where
  reads front enc rest b hlen h := hm.reads front enc rest b hlen ((hcode enc b).mpr h)
  sound front tail a pos hlen h := by
    obtain ⟨enc, rest, htail, henc, hpos⟩ := hm.sound front tail a pos hlen h
    exact ⟨enc, rest, htail, (hcode enc _).mp henc, hpos⟩
  traps front tail hlen := (hm.traps front tail hlen).trans (htrap _ tail)

theorem many (hm : Meets bound bad view m φ) (n : ℕ) :
    Meets bound bad (fun _ => ()) (Reader.many m n) (φ.times n) := by
  induction n with
  | zero =>
    apply (pure (fun _ => ()) []).congr
    · intro enc u
      constructor
      · rintro ⟨rfl, -⟩
        exact ⟨[], rfl, nofun, rfl⟩
      · rintro ⟨encs, hlen, -, rfl⟩
        rw [List.length_eq_zero_iff.mp hlen]
        exact ⟨rfl, rfl⟩
    · intro pos tail
      exact ⟨False.elim, fun ⟨_, _, hlen, _⟩ => absurd hlen (Nat.not_lt_zero _)⟩
  | succ n ih =>
    have hrest : ∀ a, Meets bound bad (fun _ => ()) (Reader.many m n >>= fun as =>
        Pure.pure (a :: as)) (φ.times n) := fun a => ih.returning fun _ => rfl
    have hstep : Meets bound bad (fun _ => ()) _ (φ.bind fun _ => φ.times n) := hm.bind hrest
    exact hstep.congr (fun enc u => (φ.times_code_succ n enc u).symm)
      fun pos tail => (φ.times_trap_succ n pos tail).symm

theorem code_unique (hm : Meets bound bad view m φ) {front enc rest enc' rest' : Bytes} {b b' : β}
    (hlen : (front ++ (enc ++ rest)).length ≤ bound) (heq : enc ++ rest = enc' ++ rest')
    (h : φ.code enc b) (h' : φ.code enc' b') : enc = enc' ∧ rest = rest' ∧ b = b' := by
  have hlen' := hlen
  rw [heq, ← List.append_assoc] at hlen'
  rw [← List.append_assoc] at hlen
  obtain ⟨a, rfl, hrun⟩ := hm.reads front enc rest b hlen h
  obtain ⟨a', rfl, hrun'⟩ := hm.reads front enc' rest' b' hlen' h'
  rw [List.append_assoc, ← heq, ← List.append_assoc, hrun] at hrun'
  obtain ⟨rfl, hpos⟩ := Prod.mk.inj (Except.ok.inj hrun')
  obtain ⟨henc, hrest⟩ := List.append_inj heq (Nat.add_left_cancel hpos)
  exact ⟨henc, hrest, rfl⟩

theorem not_trap (hm : Meets bound bad view m φ) {front enc rest : Bytes} {b : β}
    (hlen : (front ++ (enc ++ rest)).length ≤ bound) (h : φ.code enc b) :
    ¬ φ.trap front.length (enc ++ rest) := by
  intro htrap
  obtain ⟨e, -, herror⟩ := (hm.traps front (enc ++ rest) hlen).mpr htrap
  rw [← List.append_assoc] at hlen herror
  obtain ⟨a, -, hrun⟩ := hm.reads front enc rest b hlen h
  cases hrun.symm.trans herror

end Meets

/-! ### Single bytes, and several -/

theorem runAt_byteOr_nil (e : ε) (front : Bytes) :
    (byteOr e).runAt (front ++ []) front.length = .error e := by
  have hget : (front ++ [])[front.length]? = none := by simp
  simp only [runAt, byteOr, StateT.run, hget]

theorem runAt_byteOr_cons (e : ε) (front : Bytes) (b : UInt8) (rest : Bytes) :
    (byteOr e).runAt (front ++ b :: rest) front.length = .ok (b, front.length + 1) := by
  have hget : (front ++ b :: rest)[front.length]? = some b := by simp
  simp only [runAt, byteOr, StateT.run, hget]

namespace Meets

variable {bound : ℕ} {bad : ε → Prop} {e : ε}

theorem byte_reads (e : ε) (front enc rest : Bytes) (b : UInt8) (h : enc = [b]) :
    ∃ a, id a = b ∧ (Reader.byteOr e).runAt (front ++ enc ++ rest) front.length =
      .ok (a, front.length + enc.length) := by
  rw [h, List.append_assoc]
  exact ⟨b, rfl, runAt_byteOr_cons e front b rest⟩

theorem byte_sound (front tail : Bytes) (a : UInt8) (pos : ℕ)
    (h : (Reader.byteOr e).runAt (front ++ tail) front.length = .ok (a, pos)) :
    ∃ enc rest, tail = enc ++ rest ∧ enc = [id a] ∧ pos = front.length + enc.length := by
  cases tail with
  | nil =>
    rw [runAt_byteOr_nil] at h
    cases h
  | cons b rest =>
    rw [runAt_byteOr_cons] at h
    obtain ⟨rfl, rfl⟩ := Prod.mk.inj (Except.ok.inj h)
    exact ⟨[b], rest, rfl, rfl, rfl⟩

theorem byteOr (he : ¬ bad e) : Meets bound bad id (Reader.byteOr e) .byte where
  reads front enc rest b _ h := byte_reads e front enc rest b h
  sound front tail a pos _ h := byte_sound front tail a pos h
  traps front tail _ := by
    refine ⟨?_, False.elim⟩
    rintro ⟨e', hbad, h⟩
    cases tail with
    | nil =>
      rw [runAt_byteOr_nil] at h
      obtain rfl : e = e' := Except.error.inj h
      exact he hbad
    | cons b rest =>
      rw [runAt_byteOr_cons] at h
      cases h

theorem mustByte (he : bad e) : Meets bound bad id (Reader.byteOr e) .mustByte where
  reads front enc rest b _ h := byte_reads e front enc rest b h
  sound front tail a pos _ h := byte_sound front tail a pos h
  traps front tail _ := by
    cases tail with
    | nil => exact ⟨fun _ => rfl, fun _ => ⟨e, he, runAt_byteOr_nil e front⟩⟩
    | cons b rest =>
      constructor
      · rintro ⟨e', -, h⟩
        rw [runAt_byteOr_cons] at h
        cases h
      · exact fun h => absurd h (List.cons_ne_nil b rest)

theorem takeOr (he : ¬ bad e) (n : ℕ) :
    Meets bound bad id (Reader.takeOr n e) (.bytes n) where
  reads := by
    rintro front enc rest _ hlen ⟨rfl, rfl⟩
    exact ⟨enc, rfl, Reads.takeOr e enc front rest hlen⟩
  sound front tail a pos _ h := by
    simp only [runAt, Reader.takeOr, StateT.run, List.length_append] at h
    split at h
    · cases h
    · rename_i hle
      obtain ⟨rfl, rfl⟩ := Prod.mk.inj (Except.ok.inj h)
      have hn : n ≤ tail.length := by omega
      rw [List.drop_left]
      refine ⟨tail.take n, tail.drop n, (List.take_append_drop n tail).symm, ⟨rfl, ?_⟩, ?_⟩
      · exact List.length_take_of_le hn
      · rw [List.length_take_of_le hn]
  traps front tail _ := by
    refine ⟨?_, False.elim⟩
    rintro ⟨e', hbad, h⟩
    simp only [runAt, Reader.takeOr, StateT.run] at h
    split at h
    · obtain rfl : e = e' := Except.error.inj h
      exact he hbad
    · cases h

end Meets

end Reader
