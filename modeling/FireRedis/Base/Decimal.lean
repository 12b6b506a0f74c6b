import FireRedis.Base.Text

/-!
# Decimal text of 64-bit integers

`decimal` is the text an integer is displayed as; `parseU64` and `parseI64` read
an optional sign and at least one digit, and fail outside the type's range.
-/

namespace Decimal

def digitByte (c : Char) : UInt8 := UInt8.ofNat c.toNat

def decimal (n : ℕ) : Bytes := (Nat.toDigits 10 n).map digitByte

def isDigit (b : UInt8) : Bool := 0x30 ≤ b && b ≤ 0x39

def digitVal (b : UInt8) : ℕ := b.toNat - 48

def parseNat (bs : Bytes) : Option ℕ :=
  if bs = [] then none
  else if bs.all isDigit then some (bs.foldl (fun n b => 10 * n + digitVal b) 0)
  else none

def stripPlus : Bytes → Bytes
  | 0x2B :: ds => ds
  | ds => ds

def parseU64 (bs : Bytes) : Option UInt64 :=
  match parseNat (stripPlus bs) with
  | some n => if n < 2 ^ 64 then some (UInt64.ofNat n) else none
  | none => none

def parseI64 : Bytes → Option Int64
  | 0x2D :: ds =>
    match parseNat ds with
    | some n => if n ≤ 2 ^ 63 then some (Int64.ofInt (-n)) else none
    | none => none
  | bs =>
    match parseNat (stripPlus bs) with
    | some n => if n < 2 ^ 63 then some (Int64.ofInt n) else none
    | none => none

def displayU64 (n : UInt64) : Bytes := decimal n.toNat

def displayI64 (i : Int64) : Bytes :=
  if i.toInt < 0 then 0x2D :: decimal i.toInt.natAbs else decimal i.toInt.natAbs

/-! ### Round trips -/

theorem digit_range {n : ℕ} {c : Char} (h : c ∈ Nat.toDigits 10 n) :
    48 ≤ c.toNat ∧ c.toNat ≤ 57 := by
  have hd := Nat.isDigit_of_mem_toDigits (by norm_num) (by norm_num) h
  simp only [Char.isDigit, Bool.and_eq_true, decide_eq_true_eq, ge_iff_le] at hd
  exact ⟨hd.1, hd.2⟩

theorem digitByte_toNat {c : Char} (h : c.toNat ≤ 57) : (digitByte c).toNat = c.toNat := by
  simp only [digitByte, UInt8.toNat_ofNat']
  omega

theorem isDigit_iff (b : UInt8) : isDigit b = true ↔ 48 ≤ b.toNat ∧ b.toNat ≤ 57 := by
  simp [isDigit, UInt8.le_iff_toNat_le]

theorem isDigit_of_mem_decimal {n : ℕ} {b : UInt8} (h : b ∈ decimal n) : isDigit b = true := by
  obtain ⟨c, hc, rfl⟩ := List.mem_map.mp h
  have hr := digit_range hc
  rw [isDigit_iff, digitByte_toNat hr.2]
  exact hr

theorem decimal_ne_nil (n : ℕ) : decimal n ≠ [] := by
  simp [decimal, Nat.toDigits_ne_nil]

theorem foldl_digitByte (cs : List Char) (init : ℕ) (h : ∀ c ∈ cs, c.toNat ≤ 57) :
    (cs.map digitByte).foldl (fun n b => 10 * n + digitVal b) init =
      Nat.ofDigitChars 10 cs init := by
  induction cs generalizing init with
  | nil => simp
  | cons c cs ih =>
    rw [List.map_cons, List.foldl_cons, ih _ fun d hd => h d (List.mem_cons_of_mem _ hd),
      Nat.ofDigitChars_cons, digitVal, digitByte_toNat (h c (List.mem_cons_self ..))]
    rfl

theorem parseNat_decimal (n : ℕ) : parseNat (decimal n) = some n := by
  have hall : (decimal n).all isDigit = true :=
    List.all_eq_true.mpr fun b hb => isDigit_of_mem_decimal hb
  have hval := foldl_digitByte (Nat.toDigits 10 n) 0 fun c hc => (digit_range hc).2
  rw [Nat.ofDigitChars_ten_toDigits] at hval
  rw [parseNat, if_neg (decimal_ne_nil n), if_pos hall]
  exact congrArg some hval

/-- A displayed natural number starts with a digit, so with no sign. -/
theorem decimal_cons (n : ℕ) : ∃ b ds, decimal n = b :: ds ∧ isDigit b = true := by
  cases h : decimal n with
  | nil => exact absurd h (decimal_ne_nil n)
  | cons b ds =>
    exact ⟨b, ds, rfl, isDigit_of_mem_decimal (n := n) (h ▸ List.mem_cons_self ..)⟩

theorem stripPlus_decimal (n : ℕ) : stripPlus (decimal n) = decimal n := by
  obtain ⟨b, ds, hb, hd⟩ := decimal_cons n
  rw [hb]
  unfold stripPlus
  split
  · rename_i heq
    obtain ⟨rfl, -⟩ := List.cons.inj heq
    exact absurd hd (by decide)
  · rfl

theorem parseU64_decimal (n : ℕ) (h : n < 2 ^ 64) :
    parseU64 (decimal n) = some (UInt64.ofNat n) := by
  rw [parseU64, stripPlus_decimal, parseNat_decimal]
  exact if_pos h

theorem parseI64_of_lt (n : ℕ) (h : n < 2 ^ 63) :
    parseI64 (decimal n) = some (Int64.ofInt n) := by
  unfold parseI64
  split
  · rename_i ds heq
    obtain ⟨b, cs, hb, hd⟩ := decimal_cons n
    rw [heq] at hb
    obtain ⟨rfl, -⟩ := List.cons.inj hb
    exact absurd hd (by decide)
  · rw [stripPlus_decimal, parseNat_decimal]
    exact if_pos h

theorem parseI64_displayI64 (i : Int64) : parseI64 (displayI64 i) = some i := by
  have hlo := Int64.le_toInt i
  have hhi := Int64.toInt_lt i
  unfold displayI64
  split
  · have hn : i.toInt.natAbs ≤ 2 ^ 63 := by omega
    have hi : -(i.toInt.natAbs : ℤ) = i.toInt := by omega
    show (match parseNat (decimal i.toInt.natAbs) with
      | some n => if n ≤ 2 ^ 63 then some (Int64.ofInt (-n)) else none
      | none => none) = some i
    rw [parseNat_decimal]
    show (if i.toInt.natAbs ≤ 2 ^ 63 then some (Int64.ofInt (-(i.toInt.natAbs : ℤ))) else none) = _
    rw [if_pos hn, hi, Int64.ofInt_toInt]
  · have hn : i.toInt.natAbs < 2 ^ 63 := by omega
    have hi : (i.toInt.natAbs : ℤ) = i.toInt := by omega
    rw [parseI64_of_lt _ hn, hi, Int64.ofInt_toInt]

theorem parseU64_displayU64 (n : UInt64) : parseU64 (displayU64 n) = some n := by
  rw [displayU64, parseU64_decimal _ n.toNat_lt, UInt64.ofNat_toNat]

theorem ascii_decimal (n : ℕ) : ∀ b ∈ decimal n, b < 0x80 := by
  intro b hb
  have hd := (isDigit_iff b).mp (isDigit_of_mem_decimal hb)
  rw [UInt8.lt_iff_toNat_lt]
  simp
  omega

theorem ascii_displayI64 (i : Int64) : ∀ b ∈ displayI64 i, b < 0x80 := by
  intro b hb
  unfold displayI64 at hb
  split at hb
  · rcases List.mem_cons.mp hb with rfl | hb
    · decide
    · exact ascii_decimal _ b hb
  · exact ascii_decimal _ b hb

end Decimal
