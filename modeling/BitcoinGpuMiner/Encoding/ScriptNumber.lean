import BitcoinGpuMiner.Encoding.ByteOrder
import BitcoinGpuMiner.Encoding.SigOps
import Mathlib.Algebra.Order.Ring.Int
import Mathlib.Data.List.Basic

/-! # Numbers on the script stack

`CScriptNum` reads a little-endian magnitude whose top bit is the sign. Several strings stand for one number; with
`fRequireMinimal` only the one that `serialize` writes is read.
-/

namespace BitcoinGpuMiner

set_option autoImplicit false

theorem forall_uint8 {p : UInt8 → Prop} (h : ∀ n < 256, p (UInt8.ofNat n)) (b : UInt8) : p b := by
  rw [← UInt8.ofNat_toNat (x := b)]
  exact h b.toNat b.toNat_lt

theorem and_0x80 (b : UInt8) : b &&& 0x80 = 0 ↔ b.toNat < 128 := by
  revert b
  apply forall_uint8
  decide +kernel

theorem and_0x7f (b : UInt8) : b &&& 0x7f = 0 ↔ b.toNat % 128 = 0 := by
  revert b
  apply forall_uint8
  decide +kernel

theorem or_0x80 (b : UInt8) : (b ||| 0x80).toNat = b.toNat % 128 + 128 := by
  revert b
  apply forall_uint8
  decide +kernel

theorem readLE_append (x y : Bytes) : readLE (x ++ y) = readLE x + 256 ^ x.length * readLE y := by
  induction x with
  | nil =>
    rw [List.nil_append, List.length_nil, Nat.pow_zero, Nat.one_mul]
    exact (Nat.zero_add _).symm
  | cons b x ih =>
    rw [List.cons_append, readLE_cons, readLE_cons, ih, List.length_cons, Nat.pow_succ', Nat.mul_add, Nat.mul_assoc,
      Nat.add_assoc]

theorem readLE_concat (x : Bytes) (b : UInt8) : readLE (x ++ [b]) = readLE x + 256 ^ x.length * b.toNat := by
  rw [readLE_append, readLE_cons]
  rfl

namespace CScriptNum

/-- What the constructor throws: the two texts of `scriptnum_error`. -/
inductive Refusal where
  | overflow
  | nonMinimal
deriving DecidableEq

def defaultMaxNumSize : Nat := 4

/-- `set_vch`; the constructor admits no string in which a shift leaves the 64 bits. -/
def setVch (vch : Bytes) : Int :=
  match vch.getLast? with
  | none => 0
  | some back =>
    if back &&& 0x80 ≠ 0 then -((readLE vch - 0x80 <<< (8 * (vch.length - 1)) : Nat) : Int) else (readLE vch : Int)

/-- The test made under `fRequireMinimal`: the last byte holds nothing but a sign, and the one before it does not
need that byte to keep its own top bit from being read as the sign. -/
def excessiveBack (vch : Bytes) : Bool :=
  match vch.reverse with
  | [] => false
  | [back] => back &&& 0x7f == 0
  | back :: second :: _ => back &&& 0x7f == 0 && second &&& 0x80 == 0

def ofVch (vch : Bytes) (fRequireMinimal : Bool) (nMaxNumSize : Nat) : Except Refusal Int :=
  if vch.length > nMaxNumSize then .error .overflow
  else if fRequireMinimal && excessiveBack vch then .error .nonMinimal
  else .ok (setVch vch)

/-- `getint`: out of range of `int` it gives the nearest bound. -/
def getint (value : Int) : Int :=
  if value > 2147483647 then 2147483647 else if value < -2147483648 then -2147483648 else value

end CScriptNum

/-- `CastToBool`: any byte but zero counts, except that the last one may be a lone sign. -/
def castToBool : Bytes → Bool
  | [] => false
  | [b] => b != 0 && b != 0x80
  | b :: rest => if b != 0 then true else castToBool rest

namespace CScriptNum

theorem setVch_concat (init : Bytes) (back : UInt8) : setVch (init ++ [back]) =
    if back.toNat < 128 then ((readLE init + 256 ^ init.length * back.toNat : Nat) : Int)
    else -((readLE init + 256 ^ init.length * (back.toNat - 128) : Nat) : Int) := by
  have hShift : 0x80 <<< (8 * ((init ++ [back]).length - 1)) = 256 ^ init.length * 128 := by
    rw [List.length_append, List.length_singleton, Nat.add_sub_cancel, Nat.shiftLeft_eq, Nat.pow_mul, Nat.mul_comm]
  rw [setVch, List.getLast?_concat]
  dsimp only
  rw [hShift, readLE_concat]
  by_cases hSign : back.toNat < 128
  · rw [if_neg (by rw [ne_eq, not_not]; exact (and_0x80 back).mpr hSign), if_pos hSign]
  · have hLe : 256 ^ init.length * 128 ≤ 256 ^ init.length * back.toNat := Nat.mul_le_mul_left _ (by omega)
    rw [if_pos (fun h => hSign ((and_0x80 back).mp h)), if_neg hSign, Nat.mul_sub, Nat.add_sub_assoc hLe]

theorem natAbs_setVch_concat (init : Bytes) (back : UInt8) :
    (setVch (init ++ [back])).natAbs = readLE init + 256 ^ init.length * (back.toNat % 128) := by
  have hByte := back.toNat_lt
  rw [setVch_concat]
  by_cases hSign : back.toNat < 128
  · rw [if_pos hSign, Nat.mod_eq_of_lt hSign]
    rfl
  · rw [if_neg hSign, show back.toNat % 128 = back.toNat - 128 by omega, Int.natAbs_neg]
    rfl

theorem natAbs_setVch_lt (init : Bytes) (back : UInt8) :
    (setVch (init ++ [back])).natAbs < 256 ^ init.length * 128 := by
  have hInit := readLE_lt init
  have hBack : back.toNat % 128 + 1 ≤ 128 := Nat.mod_lt _ (by decide)
  have hMul := Nat.mul_le_mul_left (256 ^ init.length) hBack
  rw [natAbs_setVch_concat]
  rw [Nat.mul_add, Nat.mul_one] at hMul
  omega

/-- The strings that pass the test for minimality, by their last bytes. -/
theorem excessiveBack_concat_eq_false {init : Bytes} {back : UInt8} :
    excessiveBack (init ++ [back]) = false ↔
      back.toNat % 128 ≠ 0 ∨ ∃ init' second, init = init' ++ [second] ∧ 128 ≤ second.toNat := by
  rcases init.eq_nil_or_concat' with rfl | ⟨init', second, rfl⟩
  · have hNone : ¬ ∃ (init' : Bytes) (second : UInt8), [] = init' ++ [second] ∧ 128 ≤ second.toNat := by
      rintro ⟨init', second, hNil, -⟩
      exact List.append_ne_nil_of_right_ne_nil init' (List.cons_ne_nil second []) hNil.symm
    rw [or_iff_left hNone]
    change (back &&& 0x7f == 0) = false ↔ _
    rw [beq_eq_false_iff_ne, ne_eq, and_0x7f]
  · have hSome : (∃ (x : Bytes) (b : UInt8), init' ++ [second] = x ++ [b] ∧ 128 ≤ b.toNat) ↔ 128 ≤ second.toNat := by
      constructor
      · rintro ⟨x, b, hEq, hLe⟩
        obtain ⟨-, hByte⟩ := List.append_inj' hEq rfl
        rwa [List.singleton_inj.mp hByte]
      · exact fun h => ⟨init', second, rfl, h⟩
    rw [hSome, excessiveBack, List.reverse_append, List.reverse_append]
    change (back &&& 0x7f == 0 && second &&& 0x80 == 0) = false ↔ _
    rw [Bool.and_eq_false_iff, beq_eq_false_iff_ne, beq_eq_false_iff_ne, ne_eq, ne_eq, and_0x7f, and_0x80, Nat.not_lt]

end CScriptNum

namespace CScript

theorem magnitude_eq_concat {fuel n : Nat} (hPos : 0 < n) (hLt : n < 256 ^ fuel) :
    ∃ init back, magnitude fuel n = init ++ [back] ∧ back ≠ 0 ∧ readLE (init ++ [back]) = n ∧
      init.length < fuel := by
  induction fuel generalizing n with
  | zero =>
    rw [Nat.pow_zero] at hLt
    omega
  | succ fuel ih =>
    have hByte : (UInt8.ofNat n).toNat = n % 256 := UInt8.toNat_ofNat'
    rw [magnitude, if_neg (by omega)]
    by_cases hSmall : n < 256
    · have hNil : magnitude fuel (n / 256) = [] := by
        rw [Nat.div_eq_of_lt hSmall]
        cases fuel with
        | zero => rfl
        | succ fuel => rw [magnitude, if_pos rfl]
      refine ⟨[], UInt8.ofNat n, by rw [hNil]; rfl, ?_, ?_, Nat.succ_pos fuel⟩
      · intro hZero
        rw [hZero] at hByte
        change 0 = n % 256 at hByte
        omega
      · rw [List.nil_append, readLE_cons, hByte]
        exact Nat.mod_eq_of_lt hSmall
    · obtain ⟨init, back, hEq, hBack, hRead, hLength⟩ := ih (n := n / 256) (by omega) (by
        rw [Nat.pow_succ] at hLt
        omega)
      refine ⟨UInt8.ofNat n :: init, back, by rw [hEq]; rfl, hBack, ?_, Nat.succ_lt_succ hLength⟩
      rw [List.cons_append, readLE_cons, hRead, hByte]
      omega

theorem magnitude_readLE {init : Bytes} {back : UInt8} (hBack : back ≠ 0) {fuel : Nat} (hFuel : init.length < fuel) :
    magnitude fuel (readLE (init ++ [back])) = init ++ [back] := by
  have hPos : ∀ x : Bytes, 0 < readLE (x ++ [back]) := by
    intro x
    have hByte : back.toNat ≠ 0 := fun h => hBack (UInt8.toNat_inj.mp h)
    rw [readLE_concat]
    exact Nat.add_pos_right _ (Nat.mul_pos (Nat.pow_pos (by decide)) (by omega))
  induction init generalizing fuel with
  | nil =>
    obtain ⟨fuel, rfl⟩ := Nat.exists_eq_add_of_lt hFuel
    have hLt := back.toNat_lt
    have hRead : readLE [back] = back.toNat := Nat.add_zero _
    have hNil : magnitude (0 + fuel) (readLE [back] / 256) = [] := by
      rw [hRead, Nat.div_eq_of_lt hLt]
      cases fuel with
      | zero => rfl
      | succ fuel => rw [Nat.zero_add, magnitude, if_pos rfl]
    have hNonzero : readLE [back] ≠ 0 := Nat.ne_of_gt (hPos [])
    rw [List.nil_append, List.length_nil, magnitude, hNil, if_neg hNonzero, hRead, UInt8.ofNat_toNat]
  | cons b init ih =>
    cases fuel with
    | zero => omega
    | succ fuel =>
      have hByte := b.toNat_lt
      rw [magnitude, if_neg (Nat.ne_of_gt (hPos _)), List.cons_append, readLE_cons, ofNat_add_mul, UInt8.ofNat_toNat,
        show (b.toNat + 256 * readLE (init ++ [back])) / 256 = readLE (init ++ [back]) by omega,
        ih (Nat.lt_of_succ_lt_succ hFuel)]

/-- `serialize` by the digits of the absolute value: a digit of its own for the sign where the top bit is taken. -/
theorem serializeNum_eq {n : Int} {init : Bytes} {back : UInt8} (hAbs : readLE (init ++ [back]) = n.natAbs)
    (hBack : back ≠ 0) (hLength : init.length < 8) :
    serializeNum n = if back.toNat < 128 then init ++ [if n < 0 then back ||| 0x80 else back]
      else init ++ [back] ++ [if n < 0 then 0x80 else 0] := by
  have hByte : back.toNat ≠ 0 := fun h => hBack (UInt8.toNat_inj.mp h)
  have hNonzero : n ≠ 0 := by
    rintro rfl
    have hPos : 0 < 256 ^ init.length * back.toNat := Nat.mul_pos (Nat.pow_pos (by decide)) (by omega)
    rw [readLE_concat] at hAbs
    change _ = 0 at hAbs
    omega
  rw [serializeNum, if_neg hNonzero, ← hAbs, magnitude_readLE hBack hLength]
  dsimp only
  rw [List.getLast?_concat]
  dsimp only
  by_cases hSign : back.toNat < 128
  · rw [if_neg (by rw [ne_eq, not_not]; exact (and_0x80 back).mpr hSign), if_pos hSign, List.dropLast_concat]
    split <;> rfl
  · rw [if_pos (fun h => hSign ((and_0x80 back).mp h)), if_neg hSign]

end CScript

namespace CScriptNum

open CScript

/-- Reading back what `serialize` wrote, and that this passes the test for minimality. -/
theorem setVch_serializeNum {n : Int} (hRange : n.natAbs < 256 ^ 8) :
    setVch (serializeNum n) = n ∧ excessiveBack (serializeNum n) = false := by
  by_cases hZero : n = 0
  · subst hZero
    exact ⟨rfl, rfl⟩
  obtain ⟨init, back, -, hBack, hRead, hLength⟩ := magnitude_eq_concat (Int.natAbs_pos.mpr hZero) hRange
  have hByte : back.toNat ≠ 0 := fun h => hBack (UInt8.toNat_inj.mp h)
  rw [serializeNum_eq hRead hBack hLength]
  by_cases hSign : back.toNat < 128
  · rw [if_pos hSign]
    by_cases hNeg : n < 0
    · have hOr := or_0x80 back
      rw [Nat.mod_eq_of_lt hSign] at hOr
      rw [if_pos hNeg, setVch_concat, if_neg (by omega), hOr, Nat.add_sub_cancel, ← readLE_concat, hRead]
      refine ⟨by omega, excessiveBack_concat_eq_false.mpr (.inl ?_)⟩
      omega
    · rw [if_neg hNeg, setVch_concat, if_pos hSign, ← readLE_concat, hRead]
      refine ⟨by omega, excessiveBack_concat_eq_false.mpr (.inl ?_)⟩
      omega
  · rw [if_neg hSign]
    have hMinimal : ∀ b : UInt8, excessiveBack (init ++ [back] ++ [b]) = false := fun b =>
      excessiveBack_concat_eq_false.mpr (.inr ⟨init, back, rfl, Nat.not_lt.mp hSign⟩)
    refine ⟨?_, hMinimal _⟩
    by_cases hNeg : n < 0
    · have hSignByte : (0x80 : UInt8).toNat = 128 := rfl
      rw [if_pos hNeg, setVch_concat, hSignByte, if_neg (by decide), Nat.sub_self, Nat.mul_zero, hRead]
      omega
    · have hZeroByte : (0 : UInt8).toNat = 0 := rfl
      rw [if_neg hNeg, setVch_concat, hZeroByte, if_pos (by decide), Nat.mul_zero, hRead]
      omega

/-- The other direction: a string that passes the test is the one `serialize` writes for its number. -/
theorem serializeNum_setVch {vch : Bytes} (hMinimal : excessiveBack vch = false) (hLength : vch.length ≤ 8) :
    serializeNum (setVch vch) = vch := by
  rcases vch.eq_nil_or_concat' with rfl | ⟨init, back, rfl⟩
  · rfl
  have hByte := back.toNat_lt
  rw [List.length_append, List.length_singleton] at hLength
  have hAbs := natAbs_setVch_concat init back
  by_cases hTop : back.toNat % 128 = 0
  · -- the last byte is only there for the sign of the one before it
    obtain hNot | ⟨init', second, rfl, hSecond⟩ := excessiveBack_concat_eq_false.mp hMinimal
    · exact absurd hTop hNot
    have hSecondNe : second ≠ 0 := by
      rintro rfl
      change 128 ≤ 0 at hSecond
      omega
    rw [List.length_append, List.length_singleton] at hLength
    rw [hTop, Nat.mul_zero, Nat.add_zero] at hAbs
    rw [serializeNum_eq hAbs.symm hSecondNe (by omega), if_neg (Nat.not_lt.mpr hSecond)]
    have hPos : 0 < readLE (init' ++ [second]) := by
      rw [readLE_concat]
      exact Nat.add_pos_right _ (Nat.mul_pos (Nat.pow_pos (by decide)) (by omega))
    congr 2
    rw [setVch_concat]
    by_cases hSign : back.toNat < 128
    · rw [if_pos hSign, if_neg (by omega)]
      apply UInt8.toNat_inj.mp
      change 0 = back.toNat
      omega
    · rw [if_neg hSign, show back.toNat - 128 = 0 by omega, Nat.mul_zero, Nat.add_zero, if_pos (by omega)]
      apply UInt8.toNat_inj.mp
      change 128 = back.toNat
      omega
  · have hLow : (UInt8.ofNat (back.toNat % 128)).toNat = back.toNat % 128 := by
      rw [UInt8.toNat_ofNat']
      omega
    have hLowNe : UInt8.ofNat (back.toNat % 128) ≠ 0 := by
      intro h
      rw [h] at hLow
      exact hTop hLow.symm
    have hRead : readLE (init ++ [UInt8.ofNat (back.toNat % 128)]) = (setVch (init ++ [back])).natAbs := by
      rw [readLE_concat, hLow, hAbs]
    have hMul : 0 < 256 ^ init.length * (back.toNat % 128) := Nat.mul_pos (Nat.pow_pos (by decide)) (by omega)
    rw [serializeNum_eq hRead hLowNe (by omega), if_pos (by rw [hLow]; omega)]
    congr 2
    rw [setVch_concat]
    by_cases hSign : back.toNat < 128
    · rw [if_pos hSign, if_neg (by omega), Nat.mod_eq_of_lt hSign, UInt8.ofNat_toNat]
    · rw [if_neg hSign, show back.toNat - 128 = back.toNat % 128 by omega, if_pos (by omega)]
      apply UInt8.toNat_inj.mp
      rw [or_0x80, hLow]
      omega

theorem natAbs_setVch_lt_of_length {vch : Bytes} {size : Nat} (hSize : 0 < size) (hLength : vch.length ≤ size) :
    (setVch vch).natAbs < 2 ^ (8 * size - 1) := by
  rcases vch.eq_nil_or_concat' with rfl | ⟨init, back, rfl⟩
  · exact Nat.pow_pos (by decide)
  · rw [List.length_append, List.length_singleton] at hLength
    have hLt := natAbs_setVch_lt init back
    have hPow : 256 ^ init.length * 128 = 2 ^ (8 * init.length + 7) := by rw [Nat.pow_add, Nat.pow_mul]
    have hLe : 2 ^ (8 * init.length + 7) ≤ 2 ^ (8 * size - 1) := Nat.pow_le_pow_right (by decide) (by omega)
    omega

theorem length_serializeNum_le_of_lt {n : Int} {size : Nat} (hSize : size ≤ 8) (hRange : n.natAbs < 2 ^ (8 * size - 1)) :
    (serializeNum n).length ≤ size := by
  by_cases hZero : n = 0
  · subst hZero
    exact Nat.zero_le _
  have hWide : n.natAbs < 256 ^ 8 := by
    have hLe : 2 ^ (8 * size - 1) ≤ 2 ^ 64 := Nat.pow_le_pow_right (by decide) (by omega)
    exact Nat.lt_of_lt_of_le hRange hLe
  obtain ⟨hValue, hMinimal⟩ := setVch_serializeNum hWide
  rcases (serializeNum n).eq_nil_or_concat' with hNil | ⟨init, back, hConcat⟩
  · rw [hNil]
    exact Nat.zero_le _
  rw [hConcat] at hValue hMinimal ⊢
  rw [List.length_append, List.length_singleton]
  -- the last byte is needed, so the number is large
  have hLarge : 2 ^ (8 * init.length) ≤ 2 * n.natAbs := by
    rw [← hValue, natAbs_setVch_concat]
    obtain hBack | ⟨init', second, rfl, hSecond⟩ := excessiveBack_concat_eq_false.mp hMinimal
    · have hMul := Nat.mul_le_mul_left (256 ^ init.length) (show 1 ≤ back.toNat % 128 by omega)
      rw [Nat.mul_one] at hMul
      rw [Nat.pow_mul]
      change 256 ^ init.length ≤ _
      omega
    · have hMul := Nat.mul_le_mul_left (256 ^ init'.length) hSecond
      rw [readLE_concat, List.length_append, List.length_singleton, Nat.mul_add, Nat.pow_add, Nat.pow_mul]
      change 256 ^ init'.length * 256 ≤ _
      omega
  by_contra hLong
  have hLe : 2 ^ (8 * size) ≤ 2 ^ (8 * init.length) := Nat.pow_le_pow_right (by decide) (by omega)
  rcases Nat.eq_zero_or_pos size with rfl | hPos
  · have hOne : n.natAbs < 1 := hRange
    have hNonzero := Int.natAbs_pos.mpr hZero
    omega
  · have hDouble : 2 ^ (8 * size) = 2 * 2 ^ (8 * size - 1) := by
      rw [← Nat.pow_succ', show (8 * size - 1).succ = 8 * size by omega]
    omega

theorem ofVch_serializeNum {n : Int} {size : Nat} (fRequireMinimal : Bool) (hSize : size ≤ 8)
    (hRange : n.natAbs < 2 ^ (8 * size - 1)) : ofVch (serializeNum n) fRequireMinimal size = .ok n := by
  have hWide : n.natAbs < 256 ^ 8 := by
    have hLe : 2 ^ (8 * size - 1) ≤ 2 ^ 64 := Nat.pow_le_pow_right (by decide) (by omega)
    exact Nat.lt_of_lt_of_le hRange hLe
  obtain ⟨hValue, hMinimal⟩ := setVch_serializeNum hWide
  rw [ofVch, if_neg (Nat.not_lt.mpr (length_serializeNum_le_of_lt hSize hRange)), hMinimal, Bool.and_false,
    if_neg Bool.false_ne_true, hValue]

/-- The numbers of at most `size` bytes and the strings read under `fRequireMinimal` correspond one to one. -/
theorem ofVch_minimal_iff {vch : Bytes} {size : Nat} {n : Int} (hPos : 0 < size) (hSize : size ≤ 8) :
    ofVch vch true size = .ok n ↔ vch = serializeNum n ∧ n.natAbs < 2 ^ (8 * size - 1) := by
  rw [ofVch, Bool.true_and]
  constructor
  · intro hOk
    by_cases hLong : vch.length > size
    · rw [if_pos hLong] at hOk
      cases hOk
    · rw [if_neg hLong] at hOk
      cases hMinimal : excessiveBack vch with
      | true =>
        rw [hMinimal, if_pos rfl] at hOk
        cases hOk
      | false =>
        rw [hMinimal, if_neg Bool.false_ne_true] at hOk
        cases hOk
        refine ⟨(serializeNum_setVch hMinimal (by omega)).symm, ?_⟩
        exact natAbs_setVch_lt_of_length hPos (by omega)
  · rintro ⟨rfl, hRange⟩
    have hOk := ofVch_serializeNum true hSize hRange
    rwa [ofVch, Bool.true_and] at hOk

theorem castToBool_concat (init : Bytes) (back : UInt8) :
    castToBool (init ++ [back]) = true ↔ readLE init ≠ 0 ∨ back.toNat % 128 ≠ 0 := by
  induction init with
  | nil =>
    revert back
    apply forall_uint8
    decide +kernel
  | cons b init ih =>
    have hCons : castToBool (b :: (init ++ [back])) = if b != 0 then true else castToBool (init ++ [back]) := by
      cases init <;> rfl
    rw [List.cons_append, hCons, readLE_cons]
    by_cases hZero : b = 0
    · subst hZero
      simp [ih]
    · have hByte : b.toNat ≠ 0 := fun h => hZero (UInt8.toNat_inj.mp h)
      simp [hZero, hByte]

/-- A string is false as a condition exactly if it is zero as a number. -/
theorem castToBool_iff (vch : Bytes) : castToBool vch = true ↔ setVch vch ≠ 0 := by
  rcases vch.eq_nil_or_concat' with rfl | ⟨init, back, rfl⟩
  · decide
  · have hPow : 256 ^ init.length ≠ 0 := (Nat.pow_pos (by decide)).ne'
    rw [castToBool_concat, ← Int.natAbs_ne_zero, natAbs_setVch_concat, ne_eq (_ + _), Nat.add_eq_zero_iff, not_and_or,
      Nat.mul_eq_zero]
    simp only [hPow, false_or, ne_eq]

/-- Numbers and strings of at most `size` bytes: what `serialize` writes is read back with and without the test for
minimality, with the test nothing else is read, and a string is a true condition if and only if its number is not
zero. -/
theorem numbers_on_the_stack_read_back (size : Nat) (hPos : 0 < size) (hSize : size ≤ 8) :
    (∀ n : Int, n.natAbs < 2 ^ (8 * size - 1) → ∀ fRequireMinimal, ofVch (serializeNum n) fRequireMinimal size = .ok n) ∧
      (∀ vch n, ofVch vch true size = .ok n → vch = serializeNum n ∧ n.natAbs < 2 ^ (8 * size - 1)) ∧
      ∀ vch fRequireMinimal n, ofVch vch fRequireMinimal size = .ok n → (castToBool vch = true ↔ n ≠ 0) := by
  refine ⟨fun n hRange fRequireMinimal => ofVch_serializeNum fRequireMinimal hSize hRange,
    fun vch n hOk => (ofVch_minimal_iff hPos hSize).mp hOk, ?_⟩
  intro vch fRequireMinimal n hOk
  rw [ofVch] at hOk
  split at hOk
  · cases hOk
  split at hOk
  · cases hOk
  cases hOk
  exact castToBool_iff vch

theorem numbers_on_the_stack_read_back_four :
    ofVch (serializeNum (-255)) true 4 = .ok (-255) ∧ (castToBool [0, 0x80] = true ↔ (0 : Int) ≠ 0) :=
  have h := numbers_on_the_stack_read_back 4 (by decide) (by decide)
  ⟨h.1 (-255) (by decide) true, h.2.2 [0, 0x80] false 0 (by decide)⟩

end CScriptNum

end BitcoinGpuMiner
