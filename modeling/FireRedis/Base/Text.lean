import FireRedis.Base.Utf8

/-!
# Text values

`Str` is text whose bytes are well-formed UTF-8, ordered byte by byte. Bytes
become text by checked or by lossy decoding.
-/

abbrev Bytes := List UInt8

/-- `isize::MAX` on a 64-bit target, the most bytes one allocation may have. -/
def isizeMax : ℕ := 2 ^ 63 - 1

/-- Text: a byte string that is well-formed UTF-8. -/
structure Str where
  bytes : Bytes
  valid : Utf8.Valid bytes
  deriving DecidableEq

namespace Str

@[ext] theorem ext {s t : Str} (h : s.bytes = t.bytes) : s = t := by
  cases s
  cases t
  cases h
  rfl

def fromUtf8 (bs : Bytes) : Option Str := if h : Utf8.Valid bs then some ⟨bs, h⟩ else none

def fromUtf8Lossy (bs : Bytes) : Str := ⟨Utf8.lossy bs, Utf8.valid_lossy bs⟩

def append (s t : Str) : Str := ⟨s.bytes ++ t.bytes, Utf8.valid_append _ _ s.valid t.valid⟩

instance : Append Str := ⟨append⟩

def utf8 (s : String) : Bytes := s.toUTF8.data.toList

def lit (s : String) : Str := fromUtf8Lossy (utf8 s)

@[simp] theorem bytes_append (s t : Str) : (s ++ t).bytes = s.bytes ++ t.bytes := rfl

@[simp] theorem fromUtf8_bytes (s : Str) : fromUtf8 s.bytes = some s := by
  simp [fromUtf8, s.valid]

@[simp] theorem fromUtf8Lossy_bytes (s : Str) : fromUtf8Lossy s.bytes = s :=
  Str.ext (Utf8.lossy_of_valid s.bytes s.valid)

theorem fromUtf8Lossy_of_ascii (bs : Bytes) (h : ∀ b ∈ bs, b < 0x80) :
    (fromUtf8Lossy bs).bytes = bs :=
  Utf8.lossy_of_valid bs (Utf8.valid_of_ascii bs h)

/-! ### Order -/

instance : Ord Str := ⟨fun s t => compare s.bytes t.bytes⟩

theorem compare_def (s t : Str) : compare s t = compare s.bytes t.bytes := rfl

instance : Std.TransOrd Str where
  eq_swap {s t} := by
    rw [compare_def, compare_def]
    exact Std.OrientedOrd.eq_swap
  isLE_trans {s t u} h1 h2 := by
    rw [compare_def] at h1 h2 ⊢
    exact Std.TransOrd.isLE_trans h1 h2

instance : Std.LawfulEqOrd Str where
  compare_self {s} := by
    rw [compare_def]
    exact Std.ReflOrd.compare_self
  eq_of_compare {s t} h := by
    rw [compare_def] at h
    exact Str.ext (Std.LawfulEqOrd.eq_of_compare h)

end Str

/-! ### ASCII case -/

def toUpper (b : UInt8) : UInt8 := if 0x61 ≤ b && b ≤ 0x7A then b - 0x20 else b

def toAsciiUppercase (bs : Bytes) : Bytes := bs.map toUpper

theorem lt_of_toUpper_lt {b : UInt8} (h : toUpper b < 0x80) : b < 0x80 := by
  unfold toUpper at h
  split at h
  · rename_i hb
    simp only [Bool.and_eq_true, decide_eq_true_eq, UInt8.le_iff_toNat_le] at hb
    rw [UInt8.lt_iff_toNat_lt]
    have h2 := hb.2
    simp at h2 ⊢
    omega
  · exact h

theorem ascii_of_toAsciiUppercase (bs : Bytes)
    (h : ∀ b ∈ toAsciiUppercase bs, b < 0x80) : ∀ b ∈ bs, b < 0x80 := fun b hb =>
  lt_of_toUpper_lt (h (toUpper b) (List.mem_map_of_mem hb))

/-- A word in some letter case is found before or after the lossy decoding. -/
theorem uppercase_lossy {word : Bytes} (hword : ∀ b ∈ word, b < 0x80) (bs : Bytes) :
    toAsciiUppercase (Str.fromUtf8Lossy bs).bytes = word ↔ toAsciiUppercase bs = word := by
  constructor
  · intro h
    have hascii := ascii_of_toAsciiUppercase (Str.fromUtf8Lossy bs).bytes (by rwa [h])
    have hsame : (Str.fromUtf8Lossy bs).bytes = bs :=
      Utf8.lossy_of_valid bs (Utf8.valid_of_lossy_ascii hascii)
    rwa [hsame] at h
  · intro h
    rwa [Str.fromUtf8Lossy_of_ascii bs (ascii_of_toAsciiUppercase bs (by rwa [h]))]

theorem toUpper_eq_iff {b c : UInt8} (hc : c < 0x41) : toUpper b = c ↔ b = c := by
  unfold toUpper
  split
  · rename_i hb
    simp only [Bool.and_eq_true, decide_eq_true_eq, UInt8.le_iff_toNat_le] at hb
    have hlo : 97 ≤ b.toNat := hb.1
    have hc' : c.toNat < 65 := UInt8.lt_iff_toNat_lt.mp hc
    have hsub : (b - 0x20).toNat = b.toNat - 32 :=
      UInt8.toNat_sub_of_le _ _ (UInt8.le_iff_toNat_le.mpr (show 32 ≤ b.toNat by omega))
    constructor
    · rintro rfl
      omega
    · rintro rfl
      omega
  · rfl

theorem pair_toAsciiUppercase {x y : UInt8} (hx : x < 0x41) (hy : y < 0x41) (bs : Bytes) :
    [x, y] <:+: toAsciiUppercase bs ↔ [x, y] <:+: bs := by
  constructor
  · rintro ⟨s, t, hst⟩
    obtain ⟨u, v, rfl, hu, hv⟩ := List.map_eq_append_iff.mp hst.symm
    obtain ⟨u, w, rfl, hu', hw⟩ := List.map_eq_append_iff.mp hu
    obtain ⟨a, w, rfl, ha, hw'⟩ := List.map_eq_cons_iff.mp hw
    obtain ⟨b, w, rfl, hb, hnil⟩ := List.map_eq_cons_iff.mp hw'
    rw [List.map_eq_nil_iff.mp hnil, (toUpper_eq_iff hx).mp ha, (toUpper_eq_iff hy).mp hb]
    exact ⟨u, v, rfl⟩
  · intro h
    have hmap := h.map toUpper
    rw [List.map_cons, List.map_cons, List.map_nil, (toUpper_eq_iff hx).mpr rfl,
      (toUpper_eq_iff hy).mpr rfl] at hmap
    exact hmap
