import FireRedis.Base.Text

/-!
# 64-bit floating-point scores

A score is the bit pattern of an `f64`. `rank` places it in the total order of
`OrderedFloat`: NaN is greatest and equal to itself, `-0.0` equals `0.0`. Two
scores are interchangeable as map keys when their ranks agree.
-/

structure F64 where
  bits : UInt64
  deriving DecidableEq

namespace F64

def magnitude (x : F64) : ℕ := x.bits.toNat % 2 ^ 63

def rank (x : F64) : ℤ :=
  if x.magnitude > 0x7FF0000000000000 then 2 ^ 63
  else if x.bits.toNat ≥ 2 ^ 63 then -x.magnitude
  else x.magnitude

instance : Ord F64 := ⟨fun x y => compare x.rank y.rank⟩

theorem compare_def (x y : F64) : compare x y = compare x.rank y.rank := rfl

instance : Std.TransOrd F64 where
  eq_swap {x y} := by
    rw [compare_def, compare_def]
    exact Std.OrientedOrd.eq_swap
  isLE_trans {x y z} hxy hyz := by
    rw [compare_def] at hxy hyz ⊢
    exact Std.TransOrd.isLE_trans hxy hyz

theorem compare_eq_iff (x y : F64) : compare x y = .eq ↔ x.rank = y.rank := by
  rw [compare_def]
  exact Std.LawfulEqOrd.compare_eq_iff_eq

/-- A positive whole number, rounded to nearest, ties to even. A carry out of
the significand moves the exponent up. -/
def ofNatBits (n : ℕ) : ℕ :=
  let e := n.log2
  let significand :=
    if e ≤ 52 then n * 2 ^ (52 - e)
    else
      let q := n / 2 ^ (e - 52)
      let r := n % 2 ^ (e - 52)
      let half := 2 ^ (e - 53)
      if r > half ∨ (r = half ∧ q % 2 = 1) then q + 1 else q
  (e + 1023) * 2 ^ 52 + significand - 2 ^ 52

/-- `i as f64`. -/
def ofI64 (i : Int64) : F64 :=
  if i.toInt = 0 then ⟨0⟩
  else if i.toInt < 0 then ⟨UInt64.ofNat (2 ^ 63 + ofNatBits i.toInt.natAbs)⟩
  else ⟨UInt64.ofNat (ofNatBits i.toInt.natAbs)⟩

example : ofI64 (-3) = ⟨0xC008000000000000⟩ ∧ ofI64 9007199254740993 = ⟨0x4340000000000000⟩ := by
  decide

end F64

/-- `f64::from_str` and `f64::to_string`. -/
structure FloatText where
  parse : Str → Option F64
  toString : F64 → Str

/-- For runs that meet no score. -/
def noFloats : FloatText := ⟨fun _ => none, fun _ => Str.lit "NaN"⟩

/-- The text of a score reads as an equal score. -/
def FloatText.RoundTrips (F : FloatText) : Prop :=
  ∀ x, ∃ y, F.parse (F.toString x) = some y ∧ y.rank = x.rank
