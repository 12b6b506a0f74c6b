import FireRedis.Base.Text

/-!
# Readers that keep a position in a buffer

A reader looks at a whole buffer from a position and gives a result and the
position behind what it read. `Reads` says what it does where a given encoding
stands; its rules follow the way readers are put together.
-/

abbrev Reader (ε α : Type) := ReaderT Bytes (StateT ℕ (Except ε)) α

namespace Reader

variable {ε α β : Type}

/-- The result and the next position, from a position in a buffer. -/
def runAt (m : Reader ε α) (buf : Bytes) (pos : ℕ) : Except ε (α × ℕ) := (m buf).run pos

theorem runAt_bind (m : Reader ε α) (f : α → Reader ε β) (buf : Bytes) (pos : ℕ) :
    (m >>= f).runAt buf pos =
      match m.runAt buf pos with
      | .ok (a, pos') => (f a).runAt buf pos'
      | .error e => .error e := by
  show (m.runAt buf pos >>= fun p => (f p.1).runAt buf p.2) = _
  cases m.runAt buf pos <;> rfl

def fail (e : ε) : Reader ε α := fun _ _ => .error e

/-- The byte at the position. -/
def byteOr (e : ε) : Reader ε UInt8 := fun buf pos =>
  match buf[pos]? with
  | some b => .ok (b, pos + 1)
  | none => .error e

/-- The `n` bytes at the position. -/
def takeOr (n : ℕ) (e : ε) : Reader ε Bytes := fun buf pos =>
  if pos + n > buf.length then .error e else .ok ((buf.drop pos).take n, pos + n)

def many (m : Reader ε α) : ℕ → Reader ε (List α)
  | 0 => pure []
  | n + 1 => do
    let a ← m
    let as ← many m n
    return a :: as

/-- Where `enc` stands in a buffer of at most `bound` bytes, `m` gives `r`, and
unless that is an error it goes on behind `enc`. -/
def Reads (bound : ℕ) (m : Reader ε α) (enc : Bytes) (r : Except ε α) : Prop :=
  ∀ front rest : Bytes, (front ++ enc ++ rest).length ≤ bound →
    m.runAt (front ++ enc ++ rest) front.length =
      r.map fun a => (a, front.length + enc.length)

variable {bound : ℕ} {m : Reader ε α} {enc enc' : Bytes}

/-- An encoding that does not fit is nowhere. -/
theorem Reads.of_length {r : Except ε α} (h : enc.length ≤ bound → Reads bound m enc r) :
    Reads bound m enc r := by
  intro front rest hlen
  apply h
  · simp only [List.length_append] at hlen
    omega
  · exact hlen

theorem Reads.pure (a : α) : Reads bound (pure a : Reader ε α) [] (.ok a) := fun _ _ _ => rfl

theorem Reads.bind {f : α → Reader ε β} {r : Except ε α} {g : α → Except ε β}
    (hm : Reads bound m enc r) (hf : ∀ a, r = .ok a → Reads bound (f a) enc' (g a)) :
    Reads bound (m >>= f) (enc ++ enc') (r >>= g) := by
  intro front rest hlen
  have hassoc : front ++ (enc ++ enc') ++ rest = front ++ enc ++ (enc' ++ rest) := by
    simp only [List.append_assoc]
  rw [hassoc] at hlen ⊢
  rw [runAt_bind, hm front (enc' ++ rest) hlen]
  cases r with
  | error e => rfl
  | ok a =>
    have hnext := hf a rfl (front ++ enc) rest (by simpa [List.append_assoc] using hlen)
    have hpos : (front ++ enc).length + enc'.length =
        front.length + (enc ++ enc').length := by
      simp only [List.length_append]
      omega
    have hbuf : front ++ enc ++ (enc' ++ rest) = front ++ enc ++ enc' ++ rest := by
      simp only [List.append_assoc]
    show (f a).runAt (front ++ enc ++ (enc' ++ rest)) (front.length + enc.length) =
      (g a).map fun b => (b, front.length + (enc ++ enc').length)
    rw [hbuf, ← List.length_append, hnext, hpos]

theorem Reads.andThen {f : α → Reader ε β} {a : α} {r : Except ε β}
    (hm : Reads bound m enc (.ok a)) (hf : Reads bound (f a) enc' r) :
    Reads bound (m >>= f) (enc ++ enc') r :=
  Reads.bind (g := fun _ => r) hm fun b hb => by
    rw [← Except.ok.inj hb]
    exact hf

theorem Reads.byteOr (e : ε) (b : UInt8) : Reads bound (byteOr e) [b] (.ok b) := by
  intro front rest hlen
  have hget : (front ++ [b] ++ rest)[front.length]? = some b := by simp
  simp only [runAt, Reader.byteOr, StateT.run, hget]
  rfl

theorem Reads.takeOr (e : ε) (bs : Bytes) : Reads bound (takeOr bs.length e) bs (.ok bs) := by
  intro front rest hlen
  have hle : ¬ front.length + bs.length > (front ++ bs ++ rest).length := by
    simp only [List.length_append]
    omega
  have htake : ((front ++ bs ++ rest).drop front.length).take bs.length = bs := by simp
  simp only [runAt, Reader.takeOr, StateT.run, if_neg hle, htake]
  rfl

theorem Reads.many {γ : Type} {enc : γ → Bytes} {g : γ → Except ε α} (items : List γ)
    (h : ∀ x ∈ items, Reads bound m (enc x) (g x)) :
    Reads bound (many m items.length) (items.flatMap enc) (items.mapM g) := by
  induction items with
  | nil => exact Reads.pure []
  | cons x items ih =>
    have htail := ih fun y hy => h y (List.mem_cons_of_mem _ hy)
    rw [List.mapM_cons, List.flatMap_cons]
    apply Reads.bind (h x (List.mem_cons_self ..))
    intro a _
    have hlast : ∀ as, Reads bound (Pure.pure (a :: as) : Reader ε (List α)) []
        (Pure.pure (a :: as)) := fun as => Reads.pure (a :: as)
    have hmany := Reads.bind htail fun as _ => hlast as
    rw [List.append_nil] at hmany
    exact hmany

end Reader
