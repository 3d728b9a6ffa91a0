import BitcoinGpuMiner.Encoding.Arith
import Mathlib.Data.Nat.Bitwise

/-! # What a compact target keeps of a number

The mantissa has three bytes, of which the first must not have its highest bit, so the number loses its low bytes:
decoding gives it back rounded down.
-/

namespace BitcoinGpuMiner

set_option autoImplicit false

/-- The number of low bits that a compact target drops. -/
def droppedBits (n : Nat) : Nat := 8 * (bitLength n / 8 - 2)

def rounded (n : Nat) : Nat := n / 2 ^ droppedBits n * 2 ^ droppedBits n

theorem rounded_le (n : Nat) : rounded n ≤ n := Nat.div_mul_le_self n _

/-- The highest bit is kept. -/
theorem two_pow_le_rounded {n k : Nat} (hLt : k < bitLength n) : 2 ^ k ≤ rounded n := by
  have hTop : 2 ^ (bitLength n - 1) ≤ n := lt_bitLength_iff.mp (by omega)
  have hSplit : bitLength n - 1 = bitLength n - 1 - droppedBits n + droppedBits n := by
    rw [droppedBits]
    omega
  rw [hSplit, Nat.pow_add, ← Nat.le_div_iff_mul_le (Nat.two_pow_pos _)] at hTop
  calc 2 ^ k ≤ 2 ^ (bitLength n - 1) := Nat.pow_le_pow_right (by decide) (by omega)
    _ = 2 ^ (bitLength n - 1 - droppedBits n) * 2 ^ droppedBits n := by rw [← Nat.pow_add, ← hSplit]
    _ ≤ rounded n := Nat.mul_le_mul_right _ hTop

theorem rounded_lt_of_bitLength_lt {n m : Nat} (hLt : bitLength n < bitLength m) : rounded n < rounded m := by
  have hBelow : n < 2 ^ bitLength n := bitLength_le_iff.mp (Nat.le_refl _)
  calc rounded n ≤ n := rounded_le n
    _ < 2 ^ bitLength n := hBelow
    _ ≤ rounded m := two_pow_le_rounded hLt

theorem rounded_mono {n m : Nat} (hLe : n ≤ m) : rounded n ≤ rounded m := by
  have hBelow : m < 2 ^ bitLength m := bitLength_le_iff.mp (Nat.le_refl _)
  have hLength : bitLength n ≤ bitLength m := bitLength_le_iff.mpr (Nat.lt_of_le_of_lt hLe hBelow)
  cases Nat.lt_or_eq_of_le hLength with
  | inl hLt => exact (rounded_lt_of_bitLength_lt hLt).le
  | inr hEq =>
    rw [rounded, rounded, droppedBits, droppedBits, hEq]
    exact Nat.mul_le_mul_right _ (Nat.div_le_div_right hLe)

theorem rounded_lt_of_twice_le {n m : Nat} (hPos : 0 < m) (hLe : 2 * n ≤ m) : rounded n < rounded m := by
  have hBits : 0 < bitLength m := lt_bitLength_iff.mpr hPos
  have hBelow : m < 2 ^ bitLength m := bitLength_le_iff.mp (Nat.le_refl _)
  have hHalf : n < 2 ^ (bitLength m - 1) := by
    have hSplit : bitLength m = bitLength m - 1 + 1 := by omega
    rw [hSplit, Nat.pow_succ] at hBelow
    omega
  have hLength : bitLength n ≤ bitLength m - 1 := bitLength_le_iff.mpr hHalf
  exact rounded_lt_of_bitLength_lt (by omega)

/-- What `SetCompact` makes of a size and a mantissa. -/
theorem target_setCompact {nSize nWord : Nat} (hSize : nSize < 2 ^ 8) (hWord : nWord < 2 ^ 23) :
    (setCompact (UInt32.ofNat (nWord ||| nSize <<< 24))).target =
      if nSize ≤ 3 then nWord >>> (8 * (3 - nSize)) else (nWord <<< (8 * (nSize - 3))) % 2 ^ 256 := by
  have hOr : nWord ||| nSize <<< 24 = nSize * 2 ^ 24 + nWord := by
    rw [Nat.or_comm, ← Nat.shiftLeft_add_eq_or_of_lt (Nat.lt_trans hWord (by decide)), Nat.shiftLeft_eq]
  have hNat : (UInt32.ofNat (nWord ||| nSize <<< 24)).toNat = nSize * 2 ^ 24 + nWord := by
    rw [hOr, UInt32.toNat_ofNat']
    omega
  have hHigh : (nSize * 2 ^ 24 + nWord) >>> 24 = nSize := by
    rw [Nat.shiftRight_eq_div_pow]
    omega
  have hLow : (nSize * 2 ^ 24 + nWord) &&& 0x007fffff = nWord := by
    rw [show 0x007fffff = 2 ^ 23 - 1 from rfl, Nat.and_two_pow_sub_one_eq_mod]
    omega
  simp only [setCompact, hNat, hHigh, hLow]
  split <;> rfl

/-- The bit that would be read as the sign. -/
theorem and_sign_ne_zero_iff {nCompact : Nat} (hLt : nCompact < 2 ^ 24) :
    nCompact &&& 0x00800000 ≠ 0 ↔ ¬ nCompact < 2 ^ 23 := by
  rw [show 0x00800000 = 2 ^ 23 from rfl, Nat.and_two_pow, Nat.testBit_eq_decide_div_mod_eq]
  by_cases hBit : nCompact / 2 ^ 23 % 2 = 1
  · simp only [hBit, decide_true, Bool.toNat_true, Nat.one_mul]
    omega
  · simp only [hBit, decide_false, Bool.toNat_false, Nat.zero_mul]
    omega

/-- The first three bytes of a number of `nSize` bytes. -/
def mantissa (nSize n : Nat) : Nat := if nSize ≤ 3 then n <<< (8 * (3 - nSize)) else n >>> (8 * (nSize - 3))

theorem mantissa_lt_iff {nSize n k : Nat} (hK : 8 * (3 - nSize) ≤ k) :
    mantissa nSize n < 2 ^ k ↔ n < 2 ^ (k + 8 * nSize - 24) := by
  rw [mantissa]
  split
  case isTrue hSmall =>
    have hExponent : k = k + 8 * nSize - 24 + 8 * (3 - nSize) := by omega
    conv_lhs => rw [hExponent, Nat.pow_add, Nat.shiftLeft_eq]
    exact Nat.mul_lt_mul_right (Nat.two_pow_pos _)
  case isFalse hLarge =>
    have hExponent : k + 8 * nSize - 24 = k + 8 * (nSize - 3) := by omega
    rw [hExponent, Nat.pow_add, Nat.shiftRight_eq_div_pow, Nat.div_lt_iff_lt_mul (Nat.two_pow_pos _)]

theorem mantissa_shiftRight (nSize n : Nat) : mantissa nSize n >>> 8 = mantissa (nSize + 1) n := by
  by_cases hSmall : nSize + 1 ≤ 3
  · have hShift : 8 * (3 - nSize) = 8 * (3 - (nSize + 1)) + 8 := by omega
    rw [mantissa, mantissa, if_pos hSmall, if_pos (by omega), hShift, Nat.shiftLeft_add, Nat.shiftLeft_shiftRight]
  · rw [mantissa, mantissa, if_neg hSmall]
    split
    case isTrue hThree =>
      obtain rfl : nSize = 3 := by omega
      rfl
    case isFalse =>
      have hShift : 8 * (nSize + 1 - 3) = 8 * (nSize - 3) + 8 := by omega
      rw [hShift, Nat.shiftRight_add]

/-- The size of the encoding: one byte more than the number has where its highest bit would be read as a sign. -/
def encodedSize (n : Nat) : Nat := bitLength n / 8 + 1

theorem mantissa_encodedSize_lt (n : Nat) : mantissa (encodedSize n) n < 2 ^ 23 := by
  rw [encodedSize, mantissa_lt_iff (by omega), ← bitLength_le_iff]
  omega

theorem getCompact_eq {n : Nat} (hPos : 0 < n) :
    getCompact n = UInt32.ofNat (mantissa (encodedSize n) n ||| encodedSize n <<< 24) := by
  have hBits : 0 < bitLength n := lt_bitLength_iff.mpr hPos
  obtain ⟨nSize, hSize⟩ : ∃ nSize, nSize = (bitLength n + 7) / 8 := ⟨_, rfl⟩
  have hBelow : mantissa nSize n < 2 ^ 24 := by
    rw [mantissa_lt_iff (by omega), ← bitLength_le_iff]
    omega
  have hSign : mantissa nSize n < 2 ^ 23 ↔ bitLength n ≤ 8 * nSize - 1 := by
    rw [mantissa_lt_iff (by omega), bitLength_le_iff]
    have hExponent : 23 + 8 * nSize - 24 = 8 * nSize - 1 := by omega
    rw [hExponent]
  have hCompact : (if nSize ≤ 3 then (n % 2 ^ 64) <<< (8 * (3 - nSize)) else n >>> (8 * (nSize - 3)) % 2 ^ 64) =
      mantissa nSize n := by
    rw [mantissa] at hBelow ⊢
    split at hBelow
    case isTrue hSmall =>
      have hWord : n < 2 ^ 64 := bitLength_le_iff.mp (by omega)
      rw [if_pos hSmall, if_pos hSmall, Nat.mod_eq_of_lt hWord]
    case isFalse hLarge => rw [if_neg hLarge, if_neg hLarge, Nat.mod_eq_of_lt (Nat.lt_trans hBelow (by decide))]
  simp only [getCompact, ← hSize, hCompact, and_sign_ne_zero_iff hBelow, mantissa_shiftRight, hSign]
  split
  case isTrue hSet =>
    have hNext : encodedSize n = nSize + 1 := by
      rw [encodedSize]
      omega
    rw [hNext]
  case isFalse hUnset =>
    have hSame : encodedSize n = nSize := by
      rw [encodedSize]
      omega
    rw [hSame]

theorem target_getCompact {n : Nat} (hLt : n < 2 ^ 256) : (setCompact (getCompact n)).target = rounded n := by
  cases Nat.eq_zero_or_pos n with
  | inl hZero =>
    subst hZero
    rfl
  | inr hPos =>
    have hLength : bitLength n ≤ 256 := bitLength_le_iff.mpr hLt
    have hSize : encodedSize n < 2 ^ 8 := by
      rw [encodedSize]
      omega
    have hDropped : droppedBits n = 8 * (encodedSize n - 3) := by
      rw [droppedBits, encodedSize]
      omega
    rw [getCompact_eq hPos, target_setCompact hSize (mantissa_encodedSize_lt n), rounded, hDropped]
    split
    case isTrue hSmall =>
      rw [mantissa, if_pos hSmall, Nat.shiftLeft_shiftRight, Nat.sub_eq_zero_of_le hSmall, Nat.mul_zero, Nat.pow_zero,
        Nat.div_one, Nat.mul_one]
    case isFalse hLarge =>
      rw [mantissa, if_neg hLarge, Nat.shiftRight_eq_div_pow, Nat.shiftLeft_eq]
      exact Nat.mod_eq_of_lt (Nat.lt_of_le_of_lt (Nat.div_mul_le_self n _) hLt)

end BitcoinGpuMiner
