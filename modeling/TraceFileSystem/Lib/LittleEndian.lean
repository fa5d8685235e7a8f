import Mathlib.Data.List.TakeDrop
import Mathlib.Tactic

/-!
# Little-endian fields of fixed width

Machine records are flattened into bytes field by field, least significant byte first.  This file
fixes the two directions for a field of `k` bytes: `leBytes k n` writes the low `k` bytes of `n`
and `ofLeBytes` reads a list of bytes back as a number.  Reading what was written returns the
number modulo `256 ^ k` (`ofLeBytes_leBytes`), so a bit vector that fits its field survives the
round trip (`ofNat_ofLeBytes_leBytes`).  The last section restates wrap-around of sixteen-bit
two's complement numbers through `%`, which is the form the arithmetic of record lengths needs.
-/

namespace LittleEndian

/-- The low `k` bytes of `n`, least significant byte first. -/
def leBytes : ℕ → ℕ → List UInt8
  | 0, _ => []
  | k + 1, n => UInt8.ofNat n :: leBytes k (n / 256)

/-- The number whose little-endian digits are the given bytes. -/
def ofLeBytes : List UInt8 → ℕ
  | [] => 0
  | b :: bs => b.toNat + 256 * ofLeBytes bs

/-- A field of `k` bytes has length `k`. -/
@[simp] theorem length_leBytes (k n : ℕ) : (leBytes k n).length = k := by
  induction k generalizing n with
  | zero => rfl
  | succ k ih => simp [leBytes, ih]

/-- Reading a field back returns the number modulo the capacity of the field. -/
theorem ofLeBytes_leBytes (k n : ℕ) : ofLeBytes (leBytes k n) = n % 256 ^ k := by
  induction k generalizing n with
  | zero => simp [leBytes, ofLeBytes, Nat.mod_one]
  | succ k ih =>
    have hbyte : (UInt8.ofNat n).toNat = n % 256 := by simp
    rw [leBytes, ofLeBytes, ih, hbyte, Nat.pow_succ, Nat.mul_comm (256 ^ k) 256, Nat.mod_mul]

/-- A bit vector no wider than its field survives writing and reading. -/
theorem ofNat_ofLeBytes_leBytes {w k : ℕ} (v : BitVec w) (hk : 2 ^ w ≤ 256 ^ k) :
    BitVec.ofNat w (ofLeBytes (leBytes k v.toNat)) = v := by
  rw [ofLeBytes_leBytes, Nat.mod_eq_of_lt (lt_of_lt_of_le v.isLt hk), BitVec.ofNat_toNat,
    BitVec.setWidth_eq]

/-! ### Two's complement -/

/-- Truncating a wrapped integer wraps it at the smaller width. -/
theorem setWidth_ofInt_of_le {v w : ℕ} (h : w ≤ v) (i : ℤ) :
    (BitVec.ofInt v i).setWidth w = BitVec.ofInt w i := by
  apply BitVec.eq_of_toInt_eq
  have hdvd : ((2 ^ w : ℕ) : ℤ) ∣ ((2 ^ v : ℕ) : ℤ) := by
    exact_mod_cast Nat.pow_dvd_pow 2 h
  have hnonneg : 0 ≤ i % ((2 ^ v : ℕ) : ℤ) := Int.emod_nonneg _ (by positivity)
  rw [BitVec.toInt_setWidth, BitVec.toInt_ofInt, BitVec.toNat_ofInt, Int.toNat_of_nonneg hnonneg,
    ← Int.emod_bmod, Int.emod_emod_of_dvd _ hdvd, Int.emod_bmod]

/-- The signed value of a wrapped sixteen-bit integer, with the wrap-around written as `%`. -/
theorem toInt_ofInt_sixteen (i : ℤ) :
    (BitVec.ofInt 16 i).toInt = (i + 32768) % 65536 - 32768 := by
  rw [BitVec.toInt_ofInt, Int.bmod_def]
  split <;> omega

/-- A wrapped integer in the signed sixteen-bit range keeps its value. -/
theorem toInt_ofInt_sixteen_of_le {i : ℤ} (hlo : -32768 ≤ i) (hhi : i ≤ 32767) :
    (BitVec.ofInt 16 i).toInt = i := by
  rw [toInt_ofInt_sixteen]
  omega

/-- The signed value of the low sixteen bits of a natural number. -/
theorem toInt_ofNat_sixteen (n : ℕ) :
    (BitVec.ofNat 16 n).toInt = ((n : ℤ) + 32768) % 65536 - 32768 := by
  rw [← toInt_ofInt_sixteen, BitVec.ofInt_natCast]

/-- A length below `2 ^ 15` keeps its value in sixteen bits. -/
theorem toInt_ofNat_of_le {n : ℕ} (h : n ≤ 32767) : (BitVec.ofNat 16 n).toInt = n := by
  rw [← BitVec.ofInt_natCast]
  exact toInt_ofInt_sixteen_of_le (by omega) (by omega)

/-- A number has the low sixteen bits zero exactly if it is a multiple of `2 ^ 16`. -/
theorem ofNat_sixteen_eq_zero_iff (n : ℕ) : BitVec.ofNat 16 n = 0 ↔ 65536 ∣ n := by
  rw [← BitVec.toNat_inj, BitVec.toNat_ofNat, Nat.dvd_iff_mod_eq_zero]
  rfl

end LittleEndian
