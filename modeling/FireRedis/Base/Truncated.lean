import FireRedis.Base.Reader

/-!
# Readers at the end of a cut buffer

`Stops` says how a reader ends where the buffer breaks off within an encoding,
and after how many bytes of it. Its rules follow the way readers are put
together, beside those of `Reads` for the encodings that are complete.
-/

namespace Reader

variable {ε α β γ : Type}

/-- Where a buffer breaks off `k` bytes into `enc`, `m` ends in an error that
`fault k` allows; uncut, the buffer would have at most `bound` bytes. -/
def Stops (bound : ℕ) (m : Reader ε α) (enc : Bytes) (fault : ℕ → ε → Prop) : Prop :=
  ∀ (front : Bytes) (k : ℕ), (front ++ enc).length ≤ bound → k < enc.length →
    ∃ e, fault k e ∧ m.runAt (front ++ enc.take k) front.length = .error e

namespace Stops

variable {bound : ℕ} {m : Reader ε α} {enc enc' : Bytes} {fault : ℕ → ε → Prop}

theorem imp {fault' : ℕ → ε → Prop} (h : Stops bound m enc fault)
    (himp : ∀ k e, fault k e → fault' k e) : Stops bound m enc fault' := by
  intro front k hlen hk
  obtain ⟨e, he, hrun⟩ := h front k hlen hk
  exact ⟨e, himp k e he, hrun⟩

/-- An encoding that does not fit is nowhere. -/
theorem of_length (h : enc.length ≤ bound → Stops bound m enc fault) :
    Stops bound m enc fault := by
  intro front k hlen hk
  refine h ?_ front k hlen hk
  rw [List.length_append] at hlen
  omega

theorem nil (m : Reader ε α) : Stops bound m [] fault := fun _ _ _ hk =>
  absurd hk (Nat.not_lt_zero _)

theorem byteOr {e : ε} (he : fault 0 e) (b : UInt8) :
    Stops bound (Reader.byteOr e) [b] fault := by
  intro front k _ hk
  obtain rfl : k = 0 := by simpa using hk
  refine ⟨e, he, ?_⟩
  have hget : (front ++ [b].take 0)[front.length]? = none := by simp
  simp only [runAt, Reader.byteOr, StateT.run, hget]

theorem takeOr {e : ε} (bs : Bytes) (he : ∀ k < bs.length, fault k e) :
    Stops bound (Reader.takeOr bs.length e) bs fault := by
  intro front k _ hk
  refine ⟨e, he k hk, ?_⟩
  have hgt : front.length + bs.length > (front ++ bs.take k).length := by
    rw [List.length_append, List.length_take]
    omega
  simp only [runAt, Reader.takeOr, StateT.run, if_pos hgt]

/-- The cut falls into the first part, or the first part is read and the cut
falls into the second. -/
theorem andThen {f : α → Reader ε β} {a : α} (hread : Reads bound m enc (.ok a))
    (hm : Stops bound m enc fault)
    (hf : Stops bound (f a) enc' fun k => fault (enc.length + k)) :
    Stops bound (m >>= f) (enc ++ enc') fault := by
  intro front k hlen hk
  rw [runAt_bind]
  by_cases hfirst : k < enc.length
  · have hlen' : (front ++ enc).length ≤ bound := by
      simp only [List.length_append] at hlen ⊢
      omega
    obtain ⟨e, he, hrun⟩ := hm front k hlen' hfirst
    rw [List.take_append_of_le_length (Nat.le_of_lt hfirst), hrun]
    exact ⟨e, he, rfl⟩
  · obtain ⟨j, rfl⟩ : ∃ j, k = enc.length + j := ⟨k - enc.length, by omega⟩
    have htake : front ++ (enc ++ enc').take (enc.length + j) =
        front ++ enc ++ enc'.take j := by
      rw [List.take_length_add_append, List.append_assoc]
    have hj : j < enc'.length := by
      rw [List.length_append] at hk
      omega
    have hcut : (front ++ enc ++ enc'.take j).length ≤ bound := by
      simp only [List.length_append, List.length_take] at hlen ⊢
      omega
    obtain ⟨e, he, hrun⟩ := hf (front ++ enc) j (by rwa [List.append_assoc]) hj
    rw [htake, hread front (enc'.take j) hcut]
    refine ⟨e, he, ?_⟩
    rw [← hrun, List.length_append]
    rfl

theorem many {enc : γ → Bytes} {g : γ → α} {bad : ε → Prop} (items : List γ)
    (hread : ∀ x ∈ items, Reads bound m (enc x) (.ok (g x)))
    (hstop : ∀ x ∈ items, Stops bound m (enc x) fun _ => bad) :
    Stops bound (many m items.length) (items.flatMap enc) fun _ => bad := by
  induction items with
  | nil => exact nil _
  | cons x items ih =>
    have htail := ih (fun y hy => hread y (List.mem_cons_of_mem _ hy))
      fun y hy => hstop y (List.mem_cons_of_mem _ hy)
    have hreads := Reads.many (g := fun y => .ok (g y)) items
      fun y hy => hread y (List.mem_cons_of_mem _ hy)
    have hall : items.mapM (fun y => (.ok (g y) : Except ε α)) = .ok (items.map g) :=
      List.mapM_pure (m := Except ε)
    rw [hall] at hreads
    rw [List.flatMap_cons]
    refine andThen (hread x (List.mem_cons_self ..)) (hstop x (List.mem_cons_self ..)) ?_
    have hlast := andThen (f := fun as => (pure (g x :: as) : Reader ε (List α))) hreads htail
      (nil _)
    rwa [List.append_nil] at hlast

end Stops

end Reader
