import BitcoinGpuMiner.Encoding.Rounding
import BitcoinGpuMiner.Model.CheckBlock

/-! # Retargeting

The elapsed time is a signed number, but the timespan it is compared with is unsigned, so both comparisons are
unsigned: a time that is negative is not below the lower bound, it is above the upper one.
-/

namespace BitcoinGpuMiner

set_option autoImplicit false

/-- The conversion of an `int64_t` to `uint64_t`. -/
def toUnsigned (n : Int) : Nat := (n % 2 ^ 64).toNat

def elapsedTime (lastBlock : Block) (nFirstBlockTime : Int) : Int := lastBlock.nTime.toNat - nFirstBlockTime

/-- The two comparisons that limit the adjustment step. -/
def limitTimespan (nActualTimespan : Int) : Int :=
  let nActualTimespan : Int :=
    if toUnsigned nActualTimespan < powTargetTimespan / 4 then (powTargetTimespan / 4 : Nat) else nActualTimespan
  if toUnsigned nActualTimespan > powTargetTimespan * 4 then (powTargetTimespan * 4 : Nat) else nActualTimespan

/-- `CalculateNextWorkRequired` with retargeting enabled. The product is with a word, so the timespan is cut to one. -/
def retarget (powLimit : Nat) (lastBlock : Block) (nFirstBlockTime : Int) : Option UInt32 := do
  let nActualTimespan := limitTimespan (elapsedTime lastBlock nFirstBlockTime)
  let bnNew := mulAssign (setCompact lastBlock.nBits).target (UInt32.ofNat (toUnsigned nActualTimespan))
  let bnNew ← divAssign bnNew powTargetTimespan
  getCompact (if bnNew > powLimit then powLimit else bnNew)

/-- The elapsed time, put between the bounds as a signed number. -/
def clampTimespan (elapsed : Int) : Nat :=
  (max (powTargetTimespan / 4 : Int) (min elapsed (powTargetTimespan * 4))).toNat

def scaledTarget (powLimit target timespan : Nat) : Nat := min powLimit (target * timespan / powTargetTimespan)

section Timespan

theorem toUnsigned_limitTimespan (elapsed : Int) : toUnsigned (limitTimespan elapsed) =
    min (max (toUnsigned elapsed) (powTargetTimespan / 4)) (powTargetTimespan * 4) := by
  have hSpan : powTargetTimespan = 1209600 := rfl
  simp only [limitTimespan, toUnsigned, hSpan]
  split <;> split <;> omega

theorem toUnsigned_limitTimespan_of_nonneg {elapsed : Int} (hNonneg : 0 ≤ elapsed) (hHigh : elapsed < 2 ^ 64) :
    toUnsigned (limitTimespan elapsed) = clampTimespan elapsed := by
  have hSpan : powTargetTimespan = 1209600 := rfl
  rw [toUnsigned_limitTimespan, clampTimespan, toUnsigned, hSpan]
  omega

theorem toUnsigned_limitTimespan_of_neg {elapsed : Int} (hNeg : elapsed < 0) (hLow : -2 ^ 63 ≤ elapsed) :
    toUnsigned (limitTimespan elapsed) = powTargetTimespan * 4 := by
  have hSpan : powTargetTimespan = 1209600 := rfl
  rw [toUnsigned_limitTimespan, toUnsigned, hSpan]
  omega

theorem clampTimespan_of_neg {elapsed : Int} (hNeg : elapsed < 0) : clampTimespan elapsed = powTargetTimespan / 4 := by
  have hSpan : powTargetTimespan = 1209600 := rfl
  rw [clampTimespan, hSpan]
  omega

theorem clampTimespan_mono {elapsed later : Int} (hLe : elapsed ≤ later) : clampTimespan elapsed ≤ clampTimespan later := by
  rw [clampTimespan, clampTimespan]
  omega

end Timespan

section Target

variable {powLimit : Nat} {lastBlock : Block} {nFirstBlockTime : Int}

theorem retarget_eq_mod : retarget powLimit lastBlock nFirstBlockTime =
    some (getCompact (min ((setCompact lastBlock.nBits).target *
      (toUnsigned (limitTimespan (elapsedTime lastBlock nFirstBlockTime)) % 2 ^ 32) % 2 ^ 256 / powTargetTimespan)
        powLimit)) := by
  have hProduct (n : Nat) : n % 2 ^ 256 < 2 ^ 256 := Nat.mod_lt n (Nat.two_pow_pos 256)
  have hMin (n : Nat) : (if n > powLimit then powLimit else n) = min n powLimit := by
    split <;> omega
  simp only [retarget, mulAssign_eq, divAssign_eq (hProduct _) (by decide : 0 < powTargetTimespan), UInt32.toNat_ofNat',
    Option.bind_eq_bind, Option.bind_some, hMin]

/-- The network that is compiled in. -/
theorem retarget_params : retarget params.powLimit.toArith lastBlock nFirstBlockTime =
    some (calculateNextWorkRequired false lastBlock nFirstBlockTime) := by
  rw [retarget_eq_mod, toUnsigned_limitTimespan]
  rfl

theorem retarget_eq {timespan : Nat} (hLimit : powLimit < 2 ^ 232)
    (hTarget : (setCompact lastBlock.nBits).target ≤ powLimit)
    (hTimespan : toUnsigned (limitTimespan (elapsedTime lastBlock nFirstBlockTime)) = timespan) :
    retarget powLimit lastBlock nFirstBlockTime =
      some (getCompact (scaledTarget powLimit (setCompact lastBlock.nBits).target timespan)) := by
  have hShort : timespan ≤ 2 ^ 23 := by
    have hSpan : powTargetTimespan = 1209600 := rfl
    rw [← hTimespan, toUnsigned_limitTimespan, hSpan]
    omega
  have hProduct : (setCompact lastBlock.nBits).target * timespan < 2 ^ 256 := by
    calc (setCompact lastBlock.nBits).target * timespan
      _ ≤ (setCompact lastBlock.nBits).target * 2 ^ 23 := Nat.mul_le_mul_left _ hShort
      _ < 2 ^ 256 := by omega
  rw [retarget_eq_mod, hTimespan, Nat.mod_eq_of_lt (Nat.lt_of_le_of_lt hShort (by decide)), Nat.mod_eq_of_lt hProduct,
    scaledTarget, Nat.min_comm]

theorem scaledTarget_mono (powLimit target : Nat) {timespan longer : Nat} (hLe : timespan ≤ longer) :
    scaledTarget powLimit target timespan ≤ scaledTarget powLimit target longer := by
  have hQuotient : target * timespan / powTargetTimespan ≤ target * longer / powTargetTimespan :=
    Nat.div_le_div_right (Nat.mul_le_mul_left target hLe)
  rw [scaledTarget, scaledTarget]
  omega

/-- Four times the target is not mistaken for a quarter of it, limited and rounded as both may be. -/
theorem getCompact_scaledTarget_ne {target : Nat} (hLimit : powLimit < 2 ^ 232) (hPos : 0 < target)
    (hTarget : target ≤ powLimit) : getCompact (scaledTarget powLimit target (powTargetTimespan * 4)) ≠
      getCompact (scaledTarget powLimit target (powTargetTimespan / 4)) := by
  have hUp : target * (powTargetTimespan * 4) / powTargetTimespan = target * 4 := by
    rw [Nat.mul_comm powTargetTimespan, ← Nat.mul_assoc, Nat.mul_div_cancel _ (by decide)]
  have hDown : 2 * (target * (powTargetTimespan / 4) / powTargetTimespan) ≤ target := by
    have hSpan : powTargetTimespan = 1209600 := rfl
    rw [hSpan]
    omega
  intro hEq
  have hTargets : (setCompact (getCompact (scaledTarget powLimit target (powTargetTimespan * 4)))).target =
      (setCompact (getCompact (scaledTarget powLimit target (powTargetTimespan / 4)))).target := by rw [hEq]
  have hBelow (timespan : Nat) : scaledTarget powLimit target timespan < 2 ^ 256 := by
    rw [scaledTarget]
    omega
  rw [target_getCompact (hBelow _), target_getCompact (hBelow _)] at hTargets
  have hLt : rounded (scaledTarget powLimit target (powTargetTimespan / 4)) <
      rounded (scaledTarget powLimit target (powTargetTimespan * 4)) := by
    rw [scaledTarget, scaledTarget, hUp]
    exact rounded_lt_of_twice_le (by omega) (by omega)
  omega

end Target

/-- For a first block that is not later than the last one the new target is the old one times the clamped timespan, and
for any other it is not; the targets for such first blocks grow with the elapsed time. -/
theorem retarget_eq_iff_nonneg {powLimit : Nat} (hLimit : powLimit < 2 ^ 232) {lastBlock : Block}
    (hPos : 0 < (setCompact lastBlock.nBits).target) (hTarget : (setCompact lastBlock.nBits).target ≤ powLimit)
    {nFirstBlockTime : Int} (hLow : -2 ^ 63 ≤ nFirstBlockTime) (hHigh : nFirstBlockTime < 2 ^ 63) :
    (retarget powLimit lastBlock nFirstBlockTime = some (getCompact (min powLimit ((setCompact lastBlock.nBits).target *
      clampTimespan (elapsedTime lastBlock nFirstBlockTime) / powTargetTimespan))) ↔
        0 ≤ elapsedTime lastBlock nFirstBlockTime) ∧
    (0 ≤ elapsedTime lastBlock nFirstBlockTime → ∀ (other : Block) (nOtherTime : Int), other.nBits = lastBlock.nBits →
      -2 ^ 63 ≤ nOtherTime → elapsedTime lastBlock nFirstBlockTime ≤ elapsedTime other nOtherTime →
      ∃ bits longer, retarget powLimit lastBlock nFirstBlockTime = some bits ∧
        retarget powLimit other nOtherTime = some longer ∧ (setCompact bits).target ≤ (setCompact longer).target) := by
  have hBelow (block : Block) {time : Int} (hTime : -2 ^ 63 ≤ time) : elapsedTime block time < 2 ^ 64 := by
    have hNow := block.nTime.toNat_lt
    rw [elapsedTime]
    omega
  constructor
  · constructor
    · intro hEq
      by_contra hNegative
      have hNeg : elapsedTime lastBlock nFirstBlockTime < 0 := by omega
      have hAbove : -2 ^ 63 ≤ elapsedTime lastBlock nFirstBlockTime := by
        rw [elapsedTime]
        omega
      rw [retarget_eq hLimit hTarget (toUnsigned_limitTimespan_of_neg hNeg hAbove), clampTimespan_of_neg hNeg] at hEq
      exact getCompact_scaledTarget_ne hLimit hPos hTarget (Option.some.inj hEq)
    · intro hNonneg
      exact retarget_eq hLimit hTarget (toUnsigned_limitTimespan_of_nonneg hNonneg (hBelow lastBlock hLow))
  · intro hNonneg other nOtherTime hBits hOther hLe
    have hSpan := toUnsigned_limitTimespan_of_nonneg hNonneg (hBelow lastBlock hLow)
    have hLonger := toUnsigned_limitTimespan_of_nonneg (hNonneg.trans hLe) (hBelow other hOther)
    have hOtherTarget : (setCompact other.nBits).target ≤ powLimit := by rwa [hBits]
    refine ⟨_, _, retarget_eq hLimit hTarget hSpan, retarget_eq hLimit hOtherTarget hLonger, ?_⟩
    have hLt (target timespan : Nat) : scaledTarget powLimit target timespan < 2 ^ 256 := by
      rw [scaledTarget]
      omega
    rw [target_getCompact (hLt _ _), target_getCompact (hLt _ _), hBits]
    exact rounded_mono (scaledTarget_mono _ _ (clampTimespan_mono hLe))

/-- A block at a quarter of the limit of the main network. -/
def quarterBlock : Block := { Block.null with nTime := 100, nBits := 0x1d003fff }

/-- A first block of the same time: the difficulty rises by four. -/
theorem retarget_eq_iff_nonneg_quarter : retarget (2 ^ 224 - 1) quarterBlock 100 = some 0x1c0fffc0 := by
  have hLimit : 2 ^ 224 - 1 < 2 ^ 232 := by decide
  have hPos : 0 < (setCompact quarterBlock.nBits).target := by decide +kernel
  have hTarget : (setCompact quarterBlock.nBits).target ≤ 2 ^ 224 - 1 := by decide +kernel
  have hLow : -2 ^ 63 ≤ (100 : Int) := by decide
  have hFormula := (retarget_eq_iff_nonneg hLimit hPos hTarget hLow (by decide)).1.mpr (by decide +kernel)
  rw [hFormula]
  decide +kernel

/-- A first block that is one second later than the last one: the difficulty falls by four, where it should rise, and the
target is above the one for no time at all. -/
theorem exists_negative_timespan_eases : ∃ (lastBlock : Block) (nFirstBlockTime : Int) (bits : UInt32),
    elapsedTime lastBlock nFirstBlockTime = -1 ∧ retarget (2 ^ 224 - 1) lastBlock nFirstBlockTime = some bits ∧
    bits ≠ getCompact (min (2 ^ 224 - 1) ((setCompact lastBlock.nBits).target *
      clampTimespan (elapsedTime lastBlock nFirstBlockTime) / powTargetTimespan)) ∧
    ∃ sooner, retarget (2 ^ 224 - 1) lastBlock (nFirstBlockTime - 1) = some sooner ∧
      (setCompact sooner).target < (setCompact bits).target :=
  ⟨quarterBlock, 101, 0x1d00fffc, by decide +kernel, by decide +kernel, by decide +kernel, 0x1c0fffc0, by decide +kernel⟩

end BitcoinGpuMiner
