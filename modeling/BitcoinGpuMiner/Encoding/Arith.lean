import BitcoinGpuMiner.Encoding.Compact
import Mathlib.Algebra.Order.Ring.Int

/-! # Multiplication and division of `arith_uint256`

The product with a word is taken word by word with a carry, the quotient bit by bit from a divisor that is first
shifted up to the length of the dividend.
-/

namespace BitcoinGpuMiner

set_option autoImplicit false

theorem bitLength_le_iff {n k : Nat} : bitLength n ≤ k ↔ n < 2 ^ k := by
  rw [bitLength]
  split
  case isTrue hZero =>
    subst hZero
    exact iff_of_true (Nat.zero_le k) (Nat.two_pow_pos k)
  case isFalse hNe => rw [Nat.succ_le_iff, Nat.log2_lt hNe]

theorem lt_bitLength_iff {n k : Nat} : k < bitLength n ↔ 2 ^ k ≤ n := by
  rw [← Nat.not_le, bitLength_le_iff, Nat.not_lt]

section Words

/-- The number that the words `pn` stand for, lowest first. -/
def ofWords : List UInt32 → Nat
  | [] => 0
  | word :: rest => word.toNat + 2 ^ 32 * ofWords rest

def toWords : Nat → Nat → List UInt32
  | 0, _ => []
  | width + 1, n => UInt32.ofNat n :: toWords width (n / 2 ^ 32)

/-- The loop of `operator*=(uint32_t)`. -/
def mulWords (b32 : UInt32) : UInt64 → List UInt32 → List UInt32
  | _, [] => []
  | carry, word :: rest =>
    let n := carry + b32.toUInt64 * word.toUInt64
    n.toUInt32 :: mulWords b32 (n >>> 32) rest

def mulAssign (n : Nat) (b32 : UInt32) : Nat := ofWords (mulWords b32 0 (toWords 8 n))

@[simp] theorem length_toWords (width n : Nat) : (toWords width n).length = width := by
  induction width generalizing n with
  | zero => rfl
  | succ width ih => rw [toWords, List.length_cons, ih]

theorem ofWords_toWords (width n : Nat) : ofWords (toWords width n) = n % 2 ^ (32 * width) := by
  induction width generalizing n with
  | zero => rw [toWords, ofWords, Nat.mul_zero, Nat.pow_zero, Nat.mod_one]
  | succ width ih =>
    rw [toWords, ofWords, ih, Nat.mul_succ, Nat.add_comm (32 * width), Nat.pow_add, Nat.mod_mul]
    rfl

/-- The carry and the product of two words fit in sixty-four bits. -/
theorem toNat_carry_add_mul {carry : UInt64} (hCarry : carry.toNat < 2 ^ 32) (b32 word : UInt32) :
    (carry + b32.toUInt64 * word.toUInt64).toNat = carry.toNat + b32.toNat * word.toNat := by
  have hProduct : b32.toNat * word.toNat ≤ (2 ^ 32 - 1) * (2 ^ 32 - 1) :=
    Nat.mul_le_mul (Nat.le_pred_of_lt b32.toNat_lt) (Nat.le_pred_of_lt word.toNat_lt)
  rw [UInt64.toNat_add, UInt64.toNat_mul, UInt32.toNat_toUInt64, UInt32.toNat_toUInt64]
  omega

theorem ofWords_mulWords (b32 : UInt32) (words : List UInt32) {carry : UInt64} (hCarry : carry.toNat < 2 ^ 32) :
    ofWords (mulWords b32 carry words) = (carry.toNat + b32.toNat * ofWords words) % 2 ^ (32 * words.length) := by
  induction words generalizing carry with
  | nil => rw [mulWords, ofWords, List.length_nil, Nat.mul_zero, Nat.pow_zero, Nat.mod_one]
  | cons word rest ih =>
    have hSum := toNat_carry_add_mul hCarry b32 word
    have hNext : ((carry + b32.toUInt64 * word.toUInt64) >>> 32).toNat =
        (carry.toNat + b32.toNat * word.toNat) / 2 ^ 32 := by
      rw [UInt64.toNat_shiftRight, hSum, Nat.shiftRight_eq_div_pow]
      rfl
    have hLow : (carry + b32.toUInt64 * word.toUInt64).toUInt32.toNat =
        (carry.toNat + b32.toNat * word.toNat) % 2 ^ 32 := by rw [UInt64.toNat_toUInt32, hSum]
    have hBound : ((carry + b32.toUInt64 * word.toUInt64) >>> 32).toNat < 2 ^ 32 := by
      have hLt := (carry + b32.toUInt64 * word.toUInt64).toNat_lt
      rw [hNext]
      omega
    have hAll : carry.toNat + b32.toNat * (word.toNat + 2 ^ 32 * ofWords rest) =
        carry.toNat + b32.toNat * word.toNat + 2 ^ 32 * (b32.toNat * ofWords rest) := by
      rw [Nat.mul_add, Nat.add_assoc, Nat.mul_left_comm]
    rw [mulWords, ofWords, hLow, ih hBound, hNext, ofWords, hAll, List.length_cons, Nat.mul_succ,
      Nat.add_comm (32 * rest.length), Nat.pow_add, Nat.mod_mul, Nat.add_mul_mod_self_left,
      Nat.add_mul_div_left _ _ (Nat.two_pow_pos 32)]

theorem mulAssign_eq (n : Nat) (b32 : UInt32) : mulAssign n b32 = n * b32.toNat % 2 ^ 256 := by
  have hCarry : (0 : UInt64).toNat < 2 ^ 32 := by decide
  rw [mulAssign, ofWords_mulWords _ _ hCarry, ofWords_toWords, length_toWords, Nat.mul_comm n]
  change (0 + b32.toNat * (n % 2 ^ 256)) % 2 ^ 256 = _
  rw [Nat.zero_add, Nat.mul_mod_mod]

end Words

section Division

/-- The loop of `operator/=`; there is one round more than `shift`. -/
def divLoop : Nat → Nat → Nat → Nat → Nat
  | 0, _, _, quotient => quotient
  | shift + 1, num, div, quotient =>
    if num ≥ div then divLoop shift (num - div) (div >>> 1) (quotient ||| 1 <<< shift)
    else divLoop shift num (div >>> 1) quotient

/-- A divisor of zero throws. -/
def divAssign (num div : Nat) : Option Nat :=
  if bitLength div = 0 then none
  else if bitLength div > bitLength num then some 0
  else
    let shift := bitLength num - bitLength div
    some (divLoop (shift + 1) num ((div <<< shift) % 2 ^ 256) 0)

theorem or_shiftLeft_of_dvd {quotient shift : Nat} (hDvd : 2 ^ (shift + 1) ∣ quotient) :
    quotient ||| 1 <<< shift = quotient + 2 ^ shift := by
  obtain ⟨high, rfl⟩ := hDvd
  have hLt : 1 <<< shift < 2 ^ (shift + 1) := by
    rw [Nat.one_shiftLeft]
    exact Nat.pow_lt_pow_right (by decide) (Nat.lt_succ_self shift)
  rw [← Nat.two_pow_add_eq_or_of_lt hLt, Nat.one_shiftLeft]

/-- Before a round the divisor is at its shift, the rest is below twice that, and the bits of the quotient that are
still to come are unset. -/
theorem divLoop_eq {div : Nat} (hPos : 0 < div) (rounds : Nat) {num quotient : Nat} (hNum : num < div * 2 ^ rounds)
    (hDvd : 2 ^ rounds ∣ quotient) : divLoop rounds num (div * 2 ^ rounds / 2) quotient = quotient + num / div := by
  induction rounds generalizing num quotient with
  | zero =>
    rw [Nat.pow_zero, Nat.mul_one] at hNum
    rw [divLoop, Nat.div_eq_of_lt hNum, Nat.add_zero]
  | succ shift ih =>
    have hShift : div * 2 ^ (shift + 1) / 2 = div * 2 ^ shift := by
      rw [Nat.pow_succ, ← Nat.mul_assoc, Nat.mul_div_cancel _ (by decide)]
    have hTwice : div * 2 ^ (shift + 1) = 2 * (div * 2 ^ shift) := by rw [Nat.pow_succ', Nat.mul_left_comm]
    have hHalf : (2 : Nat) ^ shift ∣ 2 ^ (shift + 1) := Nat.pow_dvd_pow 2 (Nat.le_succ shift)
    rw [hShift, divLoop, Nat.shiftRight_one]
    split
    case isTrue hGe =>
      have hSum : num = num - div * 2 ^ shift + div * 2 ^ shift := by omega
      rw [or_shiftLeft_of_dvd hDvd, ih (by omega) (Nat.dvd_add (hHalf.trans hDvd) (Nat.dvd_refl _))]
      conv_rhs => rw [hSum, Nat.add_mul_div_left _ _ hPos]
      omega
    case isFalse hLt => exact ih (by omega) (hHalf.trans hDvd)

theorem divAssign_eq {num div : Nat} (hNum : num < 2 ^ 256) (hPos : 0 < div) : divAssign num div = some (num / div) := by
  have hBits : 0 < bitLength div := lt_bitLength_iff.mpr hPos
  rw [divAssign, if_neg hBits.ne']
  split
  case isTrue hShort =>
    -- the dividend is shorter, so it is smaller
    have hLt : num < div := by
      have hNumLt : num < 2 ^ bitLength num := bitLength_le_iff.mp (Nat.le_refl _)
      exact Nat.lt_of_lt_of_le hNumLt (lt_bitLength_iff.mp hShort)
    rw [Nat.div_eq_of_lt hLt]
  case isFalse hLong =>
    obtain ⟨shift, hShift⟩ := Nat.exists_eq_add_of_le (Nat.not_lt.mp hLong)
    have hAligned : div <<< shift < 2 ^ 256 := by
      have hDiv : div < 2 ^ bitLength div := bitLength_le_iff.mp (Nat.le_refl _)
      calc div <<< shift = div * 2 ^ shift := Nat.shiftLeft_eq div shift
        _ < 2 ^ bitLength div * 2 ^ shift := Nat.mul_lt_mul_of_pos_right hDiv (Nat.two_pow_pos shift)
        _ = 2 ^ bitLength num := by rw [hShift, Nat.pow_add]
        _ ≤ 2 ^ 256 := Nat.pow_le_pow_right (by decide) (bitLength_le_iff.mpr hNum)
    have hBelow : num < div * 2 ^ (shift + 1) := by
      have hTop : 2 ^ (bitLength div - 1) ≤ div := lt_bitLength_iff.mp (by omega)
      have hLength : bitLength num = bitLength div - 1 + (shift + 1) := by omega
      calc num < 2 ^ bitLength num := bitLength_le_iff.mp (Nat.le_refl _)
        _ = 2 ^ (bitLength div - 1) * 2 ^ (shift + 1) := by rw [hLength, Nat.pow_add]
        _ ≤ div * 2 ^ (shift + 1) := Nat.mul_le_mul_right _ hTop
    have hLoop := divLoop_eq hPos (shift + 1) hBelow (Nat.dvd_zero _)
    rw [Nat.pow_succ, ← Nat.mul_assoc, Nat.mul_div_cancel _ (by decide), Nat.zero_add, ← Nat.shiftLeft_eq] at hLoop
    have hDifference : bitLength num - bitLength div = shift := by omega
    simp only [hDifference, Nat.mod_eq_of_lt hAligned, hLoop]

end Division

end BitcoinGpuMiner
