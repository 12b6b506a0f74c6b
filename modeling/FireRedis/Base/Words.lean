import FireRedis.Base.Text

/-!
# Words as bytes

A number is spelled in a fixed count of bytes, least or most significant first.
-/

def leBytes : ℕ → ℕ → Bytes
  | 0, _ => []
  | k + 1, n => UInt8.ofNat (n % 256) :: leBytes k (n / 256)

def leNat : Bytes → ℕ
  | [] => 0
  | b :: bs => b.toNat + 256 * leNat bs

theorem leBytes_length (k n : ℕ) : (leBytes k n).length = k := by
  induction k generalizing n with
  | zero => rfl
  | succ k ih => rw [leBytes, List.length_cons, ih]

theorem leNat_leBytes (k n : ℕ) (h : n < 256 ^ k) : leNat (leBytes k n) = n := by
  induction k generalizing n with
  | zero =>
    have hn : n = 0 := by omega
    rw [hn]
    rfl
  | succ k ih =>
    have hdiv : n / 256 < 256 ^ k := by
      have hpow : 256 ^ (k + 1) = 256 ^ k * 256 := Nat.pow_succ ..
      omega
    have hlow : (UInt8.ofNat (n % 256)).toNat = n % 256 := by
      rw [UInt8.toNat_ofNat']
      omega
    rw [leBytes, leNat, ih (n / 256) hdiv, hlow]
    omega

/-- `u64::to_le_bytes`. -/
def toLeBytes (n : UInt64) : Bytes := leBytes 8 n.toNat

/-- `from_le_bytes` of `u32` and `u64`, widened to 64 bits. -/
def fromLeBytes (bs : Bytes) : UInt64 := UInt64.ofNat (leNat bs)

/-- `u64::to_be_bytes`. -/
def toBeBytes (n : UInt64) : Bytes := (leBytes 8 n.toNat).reverse

/-- `u64::from_be_bytes`. -/
def fromBeBytes (bs : Bytes) : UInt64 := UInt64.ofNat (leNat bs.reverse)

@[simp] theorem toLeBytes_length (n : UInt64) : (toLeBytes n).length = 8 := leBytes_length 8 _

@[simp] theorem toBeBytes_length (n : UInt64) : (toBeBytes n).length = 8 := by
  rw [toBeBytes, List.length_reverse, leBytes_length]

@[simp] theorem fromLeBytes_toLeBytes (n : UInt64) : fromLeBytes (toLeBytes n) = n := by
  have hlt : n.toNat < 256 ^ 8 := n.toNat_lt
  rw [fromLeBytes, toLeBytes, leNat_leBytes 8 n.toNat hlt, UInt64.ofNat_toNat]

@[simp] theorem fromBeBytes_toBeBytes (n : UInt64) : fromBeBytes (toBeBytes n) = n := by
  have hlt : n.toNat < 256 ^ 8 := n.toNat_lt
  rw [fromBeBytes, toBeBytes, List.reverse_reverse, leNat_leBytes 8 n.toNat hlt,
    UInt64.ofNat_toNat]

theorem toBeBytes_drop (n : UInt64) : (toBeBytes n).drop 6 =
    [UInt8.ofNat (n.toNat / 256 % 256), UInt8.ofNat (n.toNat % 256)] := rfl

/-- A byte behind a word that leaves room for it. -/
theorem shiftLeft_or_toNat {n : UInt64} (h : n.toNat < 64) (b : UInt8) :
    (n <<< 8 ||| b.toUInt64).toNat = n.toNat * 256 + b.toNat := by
  have hshift : n.toNat <<< 8 % 2 ^ 64 = 2 ^ 8 * n.toNat := by
    rw [Nat.shiftLeft_eq]
    omega
  have hor := Nat.two_pow_add_eq_or_of_lt (i := 8) (b := b.toNat) b.toNat_lt n.toNat
  rw [UInt64.toNat_or, UInt64.toNat_shiftLeft, UInt8.toNat_toUInt64]
  show n.toNat <<< 8 % 2 ^ 64 ||| b.toNat = _
  rw [hshift, ← hor, Nat.mul_comm]
