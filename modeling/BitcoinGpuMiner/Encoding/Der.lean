import BitcoinGpuMiner.Encoding.ScriptNumber
import BitcoinGpuMiner.Model.SignatureEncoding
import Mathlib.Data.Nat.Size

/-! # Signatures in their canonical encoding

The canonical bytes of a natural number are the fewest that keep the top bit clear. The strict test accepts exactly
the sequences of two such numbers followed by a hash type, and the lax parser reads the two numbers back from them.
-/

namespace BitcoinGpuMiner

set_option autoImplicit false

theorem readBE_cons (b : UInt8) (bytes : Bytes) : readBE (b :: bytes) = b.toNat * 256 ^ bytes.length + readBE bytes := by
  rw [readBE_eq, readBE_eq, List.reverse_cons, readLE_concat, List.length_reverse, Nat.mul_comm, Nat.add_comm]

theorem readBE_lt (bytes : Bytes) : readBE bytes < 256 ^ bytes.length := by
  have hLt := readLE_lt bytes.reverse
  rwa [← readBE_eq, List.length_reverse] at hLt

namespace Der

/-- The bytes of an integer: one of them at least, and a clear top bit. -/
def integerBytes (n : Nat) : Bytes := writeBE (n.size / 8 + 1) n

def integer (n : Nat) : Bytes := 0x02 :: UInt8.ofNat (integerBytes n).length :: integerBytes n

def signature (r s : Nat) : Bytes :=
  let body := integer r ++ integer s
  0x30 :: UInt8.ofNat body.length :: body

/-- What the strict test asks of the bytes of one number. -/
def Minimal (bytes : Bytes) : Prop :=
  bytes ≠ [] ∧ bytes.getD 0 0 &&& 0x80 = 0 ∧ ¬ (bytes.length > 1 ∧ bytes.getD 0 0 = 0 ∧ bytes.getD 1 0x80 &&& 0x80 = 0)

theorem length_integerBytes (n : Nat) : (integerBytes n).length = n.size / 8 + 1 := length_writeBE _ _

theorem lt_256_pow_iff {n k : Nat} : n < 256 ^ k ↔ n.size ≤ 8 * k := by
  rw [show 256 = 2 ^ 8 from rfl, ← Nat.pow_mul, Nat.size_le]

theorem readBE_integerBytes (n : Nat) : readBE (integerBytes n) = n := by
  rw [integerBytes, readBE_writeBE, Nat.mod_eq_of_lt]
  rw [lt_256_pow_iff]
  omega

/-- The first byte leaves room for the sign exactly when the number does. -/
theorem top_clear_iff (b : UInt8) (rest : Bytes) : b &&& 0x80 = 0 ↔ (readBE (b :: rest)).size ≤ 8 * rest.length + 7 := by
  have hRest := readBE_lt rest
  have hPow : 2 ^ (8 * rest.length + 7) = 128 * 256 ^ rest.length := by
    rw [Nat.pow_add, Nat.pow_mul, Nat.mul_comm]
  rw [and_0x80, Nat.size_le, hPow, readBE_cons]
  constructor
  · intro hLt
    have hMul := Nat.mul_le_mul_right (256 ^ rest.length) (show b.toNat + 1 ≤ 128 from hLt)
    rw [Nat.add_mul, Nat.one_mul] at hMul
    omega
  · intro hLt
    by_contra hGe
    have hMul := Nat.mul_le_mul_right (256 ^ rest.length) (Nat.not_lt.mp hGe)
    omega

theorem readBE_zero_cons (rest : Bytes) : readBE (0 :: rest) = readBE rest := by
  rw [readBE_cons]
  exact (congrArg (· + readBE rest) (Nat.zero_mul _)).trans (Nat.zero_add _)

theorem size_readBE_le (bytes : Bytes) : (readBE bytes).size ≤ 8 * bytes.length :=
  lt_256_pow_iff.mp (readBE_lt bytes)

theorem size_readBE_cons_gt {b : UInt8} (hByte : b ≠ 0) (rest : Bytes) : 8 * rest.length < (readBE (b :: rest)).size := by
  have hPos : 1 ≤ b.toNat := by
    have hNe : b.toNat ≠ 0 := fun h => hByte (UInt8.toNat_inj.mp h)
    omega
  have hMul := Nat.mul_le_mul_right (256 ^ rest.length) hPos
  rw [Nat.lt_size, Nat.pow_mul, readBE_cons]
  change 256 ^ rest.length ≤ _
  omega

/-- The test on the bytes of a number says that they are its canonical ones. -/
theorem minimal_iff (bytes : Bytes) : Minimal bytes ↔ bytes = integerBytes (readBE bytes) := by
  have hCanonical : ∀ {n k : Nat}, bytes = writeBE k n → k = n.size / 8 + 1 → bytes = integerBytes n := by
    rintro n k hEq rfl
    exact hEq
  have hRead := writeBE_readBE bytes
  constructor
  · rintro ⟨hSome, hTop, hShort⟩
    apply hCanonical hRead.symm
    rcases bytes with _ | ⟨b, rest⟩
    · exact absurd rfl hSome
    have hLe := (top_clear_iff b rest).mp hTop
    rw [List.length_cons]
    by_cases hZero : b = 0
    · subst hZero
      rcases rest with _ | ⟨c, rest⟩
      · rfl
      · have hNext : ¬ c &&& 0x80 = 0 := fun h => hShort ⟨by simp, rfl, h⟩
        have hGt : ¬ (readBE (c :: rest)).size ≤ 8 * rest.length + 7 := fun h => hNext ((top_clear_iff c rest).mpr h)
        have hSize := size_readBE_le (c :: rest)
        rw [readBE_zero_cons]
        rw [List.length_cons] at hSize ⊢
        omega
    · have hGt := size_readBE_cons_gt hZero rest
      omega
  · intro hEq
    have hLength := congrArg List.length hEq
    rw [length_integerBytes] at hLength
    rcases bytes with _ | ⟨b, rest⟩
    · cases hLength
    rw [List.length_cons] at hLength
    refine ⟨List.cons_ne_nil b rest, ?_, ?_⟩
    · apply (top_clear_iff b rest).mpr
      omega
    · rintro ⟨hLong, hZero, hNext⟩
      change b = 0 at hZero
      subst hZero
      rcases rest with _ | ⟨c, rest⟩
      · simp at hLong
      · have hLe := (top_clear_iff c rest).mp hNext
        rw [readBE_zero_cons, List.length_cons] at hLength
        omega

end Der

namespace Reading

variable {α : Type} {f : Unit → Reading α} {g : UInt8 → Reading α} {input : Bytes} {pos : Nat} {a : α}

theorem refuseIf_bind_ok {c : Prop} [Decidable c] : (refuseIf c >>= f) = .ok a ↔ ¬ c ∧ f () = .ok a := by
  rw [refuseIf]
  by_cases h : c
  · rw [if_pos h]
    constructor
    · intro hErr
      cases hErr
    · exact fun hBoth => absurd h hBoth.1
  · rw [if_neg h]
    exact ⟨fun hOk => ⟨h, hOk⟩, fun hBoth => hBoth.2⟩

theorem byte_bind_ok : (byte input pos >>= g) = .ok a ↔ ∃ b, input[pos]? = some b ∧ g b = .ok a := by
  rw [byte]
  cases h : input[pos]? with
  | none =>
    constructor
    · intro hErr
      cases hErr
    · rintro ⟨b, hSome, -⟩
      cases hSome
  | some b =>
    constructor
    · exact fun hOk => ⟨b, rfl, hOk⟩
    · rintro ⟨b', hSome, hOk⟩
      cases hSome
      exact hOk

theorem refuseIf_ok {c : Prop} [Decidable c] : refuseIf c = .ok () ↔ ¬ c := by
  rw [refuseIf]
  by_cases h : c
  · rw [if_pos h]
    constructor
    · intro hErr
      cases hErr
    · exact fun hNot => absurd h hNot
  · rw [if_neg h]
    exact ⟨fun _ => h, fun _ => rfl⟩

/-- Programs that never leave their buffer, and whose values satisfy `post`. -/
def Inside (p : Reading α) (post : α → Prop) : Prop := p ≠ .error .outOfBounds ∧ ∀ a, p = .ok a → post a

section
variable {β : Type} {post : α → Prop} {mid : β → Prop} {p : Reading β} {k : β → Reading α}

theorem Inside.ok {a : α} (h : post a) : Inside (.ok a : Reading α) post := by
  constructor
  · intro hErr
    cases hErr
  · rintro a' hEq
    cases hEq
    exact h

theorem Inside.of_ok {a : α} {p : Reading α} (hOk : p = .ok a) : Inside p (· = a) := hOk ▸ .ok rfl

theorem Inside.refused : Inside (.error .refused : Reading α) post := by
  constructor
  · intro hErr
    cases hErr
  · rintro a' hEq
    cases hEq

theorem Inside.mono {weak : α → Prop} {p : Reading α} (h : Inside p post) (hWeak : ∀ a, post a → weak a) :
    Inside p weak :=
  ⟨h.1, fun a hOk => hWeak a (h.2 a hOk)⟩

theorem Inside.refuseIf (c : Prop) [Decidable c] : Inside (refuseIf c) fun _ => ¬ c := by
  rw [Reading.refuseIf]
  by_cases hc : c
  · rw [if_pos hc]
    exact .refused
  · rw [if_neg hc]
    exact .ok hc

theorem Inside.byte (hPos : pos < input.length) : Inside (byte input pos) fun b => input[pos]? = some b := by
  have hByte := List.getElem?_eq_getElem hPos
  rw [Reading.byte, hByte]
  exact .ok rfl

theorem Inside.left (hPos : pos ≤ input.length) : Inside (left input pos) fun n => pos + n = input.length := by
  rw [Reading.left, if_pos hPos]
  exact .ok (by omega)

theorem Inside.bind (hFirst : Inside p mid) (hRest : ∀ b, mid b → Inside (k b) post) : Inside (p >>= k) post := by
  cases p with
  | ok b => exact hRest b (hFirst.2 b rfl)
  | error stop =>
    cases stop with
    | refused => exact .refused
    | outOfBounds => exact absurd rfl hFirst.1

end

end Reading

namespace Der

open Reading

theorem inside_testInteger {sig : Bytes} {pos len : Nat} (hEnd : pos + 2 + len < sig.length) :
    Inside (testInteger sig pos len) fun _ => True := by
  rw [testInteger]
  refine .bind (.byte (by omega)) fun _ _ => .bind (.refuseIf _) fun _ _ => .bind (.refuseIf _) fun _ hSome =>
    .bind (.byte (by omega)) fun first _ => .bind (.refuseIf _) fun _ _ => ?_
  split
  case isTrue hLong => exact .bind (.byte (by omega)) fun _ _ => (Inside.refuseIf _).mono fun _ _ => trivial
  case isFalse => exact .ok trivial

/-- The strict test never reads behind the end of a signature. -/
theorem inside_isValidSignatureEncoding (sig : Bytes) : Inside (isValidSignatureEncoding sig) fun _ => True := by
  rw [isValidSignatureEncoding]
  refine .bind (.refuseIf _) fun _ hLong => .bind (.refuseIf _) fun _ _ => .bind (.byte (by omega)) fun _ _ =>
    .bind (.refuseIf _) fun _ _ => .bind (.byte (by omega)) fun _ _ => .bind (.refuseIf _) fun _ _ =>
    .bind (.byte (by omega)) fun lenR _ => .bind (.refuseIf _) fun _ hR => .bind (.byte (by omega)) fun lenS _ =>
    .bind (.refuseIf _) fun _ hTotal => .bind (inside_testInteger (by omega)) fun _ _ => inside_testInteger (by omega)

theorem getElem?_append_add {α : Type} (front back : List α) (i : Nat) :
    (front ++ back)[front.length + i]? = back[i]? := by
  rw [List.getElem?_append_right (Nat.le_add_right _ _), Nat.add_sub_cancel_left]

theorem testInteger_ok (front bytes rest : Bytes) (tag size : UInt8) {pos : Nat} (hPos : front.length = pos) :
    testInteger (front ++ tag :: size :: (bytes ++ rest)) pos bytes.length = .ok () ↔ tag = 0x02 ∧ Minimal bytes := by
  subst hPos
  have hAt := getElem?_append_add front (tag :: size :: (bytes ++ rest))
  rw [testInteger, byte_bind_ok, show front.length = front.length + 0 from rfl, hAt]
  simp only [List.getElem?_cons_zero, Option.some.injEq, exists_eq_left', refuseIf_bind_ok, byte_bind_ok, hAt, not_not,
    List.getElem?_cons_succ, Minimal, Nat.add_zero]
  rcases bytes with _ | ⟨b, _ | ⟨c, bytes⟩⟩
  · simp
  · simp [pure, Except.pure]
  · by_cases hZero : b = 0
    · simp [hZero, byte_bind_ok, refuseIf_ok]
    · simp [hZero, pure, Except.pure]

theorem bind_ok_iff {α β : Type} {p : Reading α} {f : α → Reading β} {b : β} :
    (p >>= f) = .ok b ↔ ∃ a, p = .ok a ∧ f a = .ok b := by
  cases p with
  | error stop =>
    constructor
    · intro hErr
      cases hErr
    · rintro ⟨a, hOk, -⟩
      cases hOk
  | ok a =>
    constructor
    · exact fun hOk => ⟨a, rfl, hOk⟩
    · rintro ⟨a', hEq, hOk⟩
      cases hEq
      exact hOk

/-- The test of a signature that is laid out as its two length bytes say. -/
theorem isValidSignatureEncoding_append {R S : Bytes} {compound total tagR sizeR tagS sizeS hashType : UInt8}
    (hR : sizeR.toNat = R.length) (hS : sizeS.toNat = S.length) :
    isValidSignatureEncoding
        (compound :: total :: tagR :: sizeR :: (R ++ tagS :: sizeS :: (S ++ [hashType]))) = .ok () ↔
      R.length + S.length + 7 ≤ 73 ∧ compound = 0x30 ∧ total.toNat = R.length + S.length + 4 ∧
        (tagR = 0x02 ∧ Minimal R) ∧ (tagS = 0x02 ∧ Minimal S) := by
  have hLength : (compound :: total :: tagR :: sizeR :: (R ++ tagS :: sizeS :: (S ++ [hashType]))).length =
      R.length + S.length + 7 := by
    simp only [List.length_cons, List.length_append, List.length_nil]
    omega
  have hSizeS : (compound :: total :: tagR :: sizeR :: (R ++ tagS :: sizeS :: (S ++ [hashType])))[5 + sizeR.toNat]? =
      some sizeS := by
    have hAt := getElem?_append_add (compound :: total :: tagR :: sizeR :: R) (tagS :: sizeS :: (S ++ [hashType])) 1
    rw [List.length_cons, List.length_cons, List.length_cons, List.length_cons] at hAt
    rw [hR, show 5 + R.length = R.length + 1 + 1 + 1 + 1 + 1 by omega]
    exact hAt
  have hTestR := testInteger_ok [compound, total] R (tagS :: sizeS :: (S ++ [hashType])) tagR sizeR (Eq.refl 2)
  have hTestS := testInteger_ok (compound :: total :: tagR :: sizeR :: R) S [hashType] tagS sizeS rfl
  rw [isValidSignatureEncoding]
  simp only [refuseIf_bind_ok, byte_bind_ok, hLength, List.getElem?_cons_zero, List.getElem?_cons_succ,
    Option.some.injEq, exists_eq_left', hSizeS, not_not]
  simp only [hR, hS, bind_ok_iff]
  constructor
  · rintro ⟨-, hLong, rfl, hTotal, -, -, ⟨⟩, hOkR, hOkS⟩
    exact ⟨by omega, rfl, by omega, hTestR.mp hOkR, hTestS.mp hOkS⟩
  · rintro ⟨hLong, rfl, hTotal, hR', hS'⟩
    have hSomeR := List.length_pos_iff.mpr hR'.2.1
    have hSomeS := List.length_pos_iff.mpr hS'.2.1
    exact ⟨by omega, by omega, rfl, by omega, by omega, trivial, (), hTestR.mpr hR', hTestS.mpr hS'⟩

/-- Every signature that passes is laid out in this way. -/
theorem exists_layout {sig : Bytes} (hValid : isValidSignatureEncoding sig = .ok ()) :
    ∃ (R S : Bytes) (compound total tagR sizeR tagS sizeS hashType : UInt8),
      sig = compound :: total :: tagR :: sizeR :: (R ++ tagS :: sizeS :: (S ++ [hashType])) ∧
        sizeR.toNat = R.length ∧ sizeS.toNat = S.length := by
  rw [isValidSignatureEncoding] at hValid
  simp only [refuseIf_bind_ok, byte_bind_ok, not_not] at hValid
  obtain ⟨hShort, -, compound, -, -, total, -, -, lenR, hLenR, hRoom, lenS, hLenS, hTotal, -⟩ := hValid
  rcases sig with _ | ⟨compound', _ | ⟨total', _ | ⟨tagR, _ | ⟨sizeR, rest⟩⟩⟩⟩
  · simp at hShort
  · simp at hShort
  · simp at hShort
  · simp at hShort
  cases hLenR
  rw [List.length_cons, List.length_cons, List.length_cons, List.length_cons] at hTotal
  have hDrop : (rest.drop lenR.toNat).length = lenS.toNat + 3 := by
    rw [List.length_drop]
    omega
  have hTake : (rest.take lenR.toNat).length = lenR.toNat := by
    rw [List.length_take]
    omega
  have hSplit := List.take_append_drop lenR.toNat rest
  rcases hRest : rest.drop lenR.toNat with _ | ⟨tagS, _ | ⟨sizeS, rest'⟩⟩
  · rw [hRest] at hDrop
    simp at hDrop
  · rw [hRest] at hDrop
    simp at hDrop
  rw [hRest] at hSplit hDrop
  rcases rest'.eq_nil_or_concat' with rfl | ⟨S, hashType, rfl⟩
  · simp at hDrop
  have hSize : sizeS = lenS := by
    have hAt := getElem?_append_add (rest.take lenR.toNat) (tagS :: sizeS :: (S ++ [hashType])) 1
    rw [hSplit, hTake] at hAt
    rw [show 5 + lenR.toNat = lenR.toNat + 1 + 1 + 1 + 1 + 1 by omega] at hLenS
    exact Option.some.inj (hAt.symm.trans hLenS)
  subst hSize
  rw [List.length_cons, List.length_cons, List.length_append, List.length_singleton] at hDrop
  exact ⟨rest.take lenR.toNat, S, compound', total', tagR, lenR, tagS, sizeS, hashType, by rw [hSplit], hTake.symm,
    by omega⟩

end Der

namespace Der

theorem signature_append (r s : Nat) (rest : Bytes) : signature r s ++ rest =
    0x30 :: UInt8.ofNat ((integerBytes r).length + (integerBytes s).length + 4) :: 0x02 ::
      UInt8.ofNat (integerBytes r).length :: (integerBytes r ++ 0x02 :: UInt8.ofNat (integerBytes s).length ::
        (integerBytes s ++ rest)) := by
  simp only [signature, integer, List.cons_append, List.append_assoc, List.length_append, List.length_cons]
  rw [show ∀ a b : Nat, a + (b + 1 + 1) + 1 + 1 = a + b + 4 by omega]

theorem length_signature (r s : Nat) :
    (signature r s).length = (integerBytes r).length + (integerBytes s).length + 6 := by
  simp [signature, integer]
  omega

theorem minimal_integerBytes (n : Nat) : Minimal (integerBytes n) := by
  rw [minimal_iff, readBE_integerBytes]

end Der

/-- The strict test accepts just the canonical encodings of two numbers, with a hash type, of at most 73 bytes. -/
theorem isValidSignatureEncoding_iff (sig : Bytes) : isValidSignatureEncoding sig = .ok () ↔
    ∃ r s hashType, sig = Der.signature r s ++ [hashType] ∧ sig.length ≤ 73 := by
  constructor
  · intro hValid
    obtain ⟨R, S, compound, total, tagR, sizeR, tagS, sizeS, hashType, rfl, hR, hS⟩ := Der.exists_layout hValid
    obtain ⟨hLong, rfl, hTotal, ⟨rfl, hMinR⟩, rfl, hMinS⟩ := (Der.isValidSignatureEncoding_append hR hS).mp hValid
    have hByte : ∀ {b : UInt8} {n : Nat}, b.toNat = n → UInt8.ofNat n = b := by
      rintro b n rfl
      exact UInt8.ofNat_toNat
    refine ⟨readBE R, readBE S, hashType, ?_, ?_⟩
    · rw [Der.signature_append, ← (Der.minimal_iff R).mp hMinR, ← (Der.minimal_iff S).mp hMinS, hByte hTotal, hByte hR,
        hByte hS]
    · simp only [List.length_cons, List.length_append, List.length_nil]
      omega
  · rintro ⟨r, s, hashType, rfl, hLong⟩
    rw [List.length_append, Der.length_signature, List.length_singleton] at hLong
    have hByte : ∀ {n : Nat}, n < 256 → (UInt8.ofNat n).toNat = n := UInt8.toNat_ofNat_of_lt'
    rw [Der.signature_append, Der.isValidSignatureEncoding_append (hByte (by omega)) (hByte (by omega))]
    exact ⟨by omega, rfl, hByte (by omega), ⟨rfl, Der.minimal_integerBytes r⟩, rfl, Der.minimal_integerBytes s⟩

/-! ## The lax parser -/

namespace DerLax

open Reading

variable {input : Bytes}

/-- The number in `len` bytes from a position. -/
def number (input : Bytes) (pos len : Nat) : Nat := readBE ((input.drop pos).take len)

theorem number_lt (input : Bytes) (pos len : Nat) : number input pos len < 256 ^ len :=
  Nat.lt_of_lt_of_le (readBE_lt _) (Nat.pow_le_pow_right (by omega) (List.length_take_le _ _))

theorem number_succ {pos len : Nat} {b : UInt8} (hEnd : pos + (len + 1) ≤ input.length) (hByte : input[pos]? = some b) :
    number input pos (len + 1) = b.toNat * 256 ^ len + number input (pos + 1) len := by
  obtain ⟨hPos, rfl⟩ := List.getElem?_eq_some_iff.mp hByte
  rw [number, List.drop_eq_getElem_cons hPos, List.take_succ_cons, readBE_cons, List.length_take, List.length_drop,
    Nat.min_eq_left (by omega), number]

/-- Zeros in front change where a number begins but not what it is. -/
theorem skipZeros_ok (len : Nat) {pos : Nat} (hEnd : pos + len ≤ input.length) :
    ∃ len' pos', skipZeros input len pos = .ok (len', pos') ∧ pos' + len' = pos + len ∧
      number input pos' len' = number input pos len ∧ (len' = 0 ∨ 256 ^ (len' - 1) ≤ number input pos len) := by
  induction len generalizing pos with
  | zero => exact ⟨0, pos, rfl, rfl, rfl, .inl rfl⟩
  | succ len ih =>
    have hByte := List.getElem?_eq_getElem (show pos < input.length by omega)
    have hStep := number_succ hEnd hByte
    have hRead : byte input pos = .ok input[pos] := by rw [byte, hByte]
    rw [skipZeros, hRead]
    change ∃ len' pos', (if input[pos] = 0 then skipZeros input len (pos + 1) else .ok (len + 1, pos)) = _ ∧ _
    by_cases hZero : input[pos] = 0
    · rw [hZero, UInt8.toNat_zero, Nat.zero_mul, Nat.zero_add] at hStep
      rw [if_pos hZero, hStep, show pos + (len + 1) = pos + 1 + len by omega]
      exact ih (by omega)
    · rw [if_neg hZero]
      refine ⟨len + 1, pos, rfl, rfl, rfl, .inr ?_⟩
      have hPos : 1 ≤ input[pos].toNat := Nat.one_le_iff_ne_zero.mpr fun h => hZero (UInt8.toNat_inj.mp h)
      have hMul := Nat.mul_le_mul_right (256 ^ len) hPos
      rw [Nat.one_mul] at hMul
      rw [Nat.add_sub_cancel]
      omega

theorem value_eq {pos len : Nat} (hEnd : pos + len ≤ input.length) : value input pos len =
    .ok (if number input pos len < 256 ^ 32 then some (number input pos len) else none) := by
  obtain ⟨len', pos', hSkip, hSum, hSame, hLead⟩ := skipZeros_ok len hEnd
  rw [value, hSkip]
  change (if len' > 32 then pure none else if pos' + len' ≤ input.length then pure (some (number input pos' len'))
    else Except.error ReadStop.outOfBounds) = _
  by_cases hLong : len' > 32
  · have hPow : 256 ^ 32 ≤ 256 ^ (len' - 1) := Nat.pow_le_pow_right (by omega) (by omega)
    rw [if_pos hLong, if_neg (by omega)]
    rfl
  · have hLt := number_lt input pos' len'
    have hPow : 256 ^ len' ≤ 256 ^ 32 := Nat.pow_le_pow_right (by omega) (by omega)
    rw [if_neg hLong, if_pos (by omega), if_pos (by omega), hSame]
    rfl

theorem readLength_inside (lenbyte : Nat) {pos len : Nat} (hEnd : pos + lenbyte ≤ input.length) :
    Inside (readLength input lenbyte pos len) fun found => found.2 = pos + lenbyte := by
  induction lenbyte generalizing pos len with
  | zero => exact .ok rfl
  | succ lenbyte ih =>
    rw [readLength, show pos + (lenbyte + 1) = pos + 1 + lenbyte by omega]
    exact .bind (.byte (by omega)) fun b _ => ih (by omega)

theorem integerLength_inside {pos : Nat} (lenbyte : UInt8) (hPos : pos ≤ input.length) :
    Inside (integerLength input lenbyte pos) fun found => found.2 ≤ input.length := by
  rw [integerLength]
  split
  case isTrue hForm =>
    refine .bind (.left hPos) fun n hLeft => .bind (.refuseIf _) fun _ hRoom => ?_
    obtain ⟨len', pos', hSkip, hSum, -⟩ := skipZeros_ok (lenbyte.toNat - 0x80) (show pos + _ ≤ input.length by omega)
    rw [hSkip]
    change Inside (refuseIf (len' ≥ 4) >>= fun _ => readLength input len' pos' 0) _
    exact .bind (.refuseIf _) fun _ _ => (readLength_inside len' (by omega)).mono fun _ hEnd => by omega
  case isFalse => exact .ok hPos

/-- The bytes of an integer that is accepted, and so the position behind them, are in the buffer. -/
theorem integer_inside {pos : Nat} (hPos : pos ≤ input.length) :
    Inside (integer input pos) fun found => found.1 + found.2.1 = found.2.2 ∧ found.2.2 ≤ input.length := by
  rw [integer]
  exact .bind (.refuseIf _) fun _ hMore => .bind (.byte (by omega)) fun _ _ => .bind (.refuseIf _) fun _ _ =>
    .bind (.refuseIf _) fun _ hMore' => .bind (.byte (by omega)) fun lenbyte _ =>
    .bind (integerLength_inside lenbyte (by omega)) fun found hFound => .bind (.left hFound) fun n hLeft =>
    .bind (.refuseIf _) fun _ hRoom => .ok ⟨rfl, show found.2 + found.1 ≤ input.length by omega⟩

theorem sequenceLength_inside {pos : Nat} (lenbyte : UInt8) (hPos : pos ≤ input.length) :
    Inside (sequenceLength input lenbyte pos) fun found => found ≤ input.length := by
  rw [sequenceLength]
  split
  case isTrue hForm => exact .bind (.left hPos) fun n hLeft => .bind (.refuseIf _) fun _ hRoom => .ok (by omega)
  case isFalse => exact .ok hPos

theorem ofNumbers_lt (r s : Option Nat) : (ofNumbers r s).1 < curveOrder ∧ (ofNumbers r s).2 < curveOrder := by
  fun_cases ofNumbers r s
  case case1 hLt => exact hLt
  case case2 => decide
  case case3 => decide

theorem ofNumbers_eq (r s : Nat) :
    ofNumbers (if r < 256 ^ 32 then some r else none) (if s < 256 ^ 32 then some s else none) =
      if r < curveOrder ∧ s < curveOrder then (r, s) else (0, 0) := by
  have hOrder : curveOrder < 256 ^ 32 := by decide
  by_cases hR : r < 256 ^ 32
  · by_cases hS : s < 256 ^ 32
    · rw [if_pos hR, if_pos hS, ofNumbers]
    · have hNot : ¬ (r < curveOrder ∧ s < curveOrder) := fun hBoth => hS (hBoth.2.trans hOrder)
      rw [if_pos hR, if_neg hS, if_neg hNot]
      rfl
  · have hNot : ¬ (r < curveOrder ∧ s < curveOrder) := fun hBoth => hR (hBoth.1.trans hOrder)
    rw [if_neg hR, if_neg hNot]
    rfl

end DerLax

open Reading

/-- The lax parser never reads behind the end of its input, whatever the lengths in it say, and returns only numbers
below the order. -/
theorem parseDerLax_inside (input : Bytes) : Inside (parseDerLax input) fun found =>
    found.1 < curveOrder ∧ found.2 < curveOrder := by
  rw [parseDerLax]
  refine .bind (.refuseIf _) fun _ hMore => .bind (.byte (by omega)) fun _ _ => .bind (.refuseIf _) fun _ _ =>
    .bind (.refuseIf _) fun _ hMore' => .bind (.byte (by omega)) fun lenbyte _ =>
    .bind (DerLax.sequenceLength_inside lenbyte (by omega)) fun pos hPos =>
    .bind (DerLax.integer_inside hPos) fun r ⟨hR, hR'⟩ => .bind (DerLax.integer_inside hR') fun s ⟨hS, hS'⟩ =>
    .bind (.of_ok (DerLax.value_eq (hR.le.trans hR'))) fun v _ =>
    .bind (.of_ok (DerLax.value_eq (hS.le.trans hS'))) fun w _ => ?_
  exact .ok (DerLax.ofNumbers_lt v w)

namespace DerLax

theorem integer_append (front bytes rest : Bytes) {size : UInt8} (hSize : size.toNat = bytes.length) (hShort : bytes.length < 0x80) :
    integer (front ++ 0x02 :: size :: (bytes ++ rest)) front.length =
      .ok (front.length + 2, bytes.length, front.length + 2 + bytes.length) := by
  have hAt := Der.getElem?_append_add front (0x02 :: size :: (bytes ++ rest))
  have hLength : (front ++ 0x02 :: size :: (bytes ++ rest)).length = front.length + 2 + bytes.length + rest.length := by
    simp only [List.length_append, List.length_cons]
    omega
  have hForm : ¬ size &&& 0x80 ≠ 0 := by
    rw [not_not, and_0x80]
    omega
  have hLength' : integerLength (front ++ 0x02 :: size :: (bytes ++ rest)) size (front.length + 1 + 1) =
      .ok (bytes.length, front.length + 2) := by
    rw [integerLength, if_neg hForm, hSize]
    rfl
  have hLeft : left (front ++ 0x02 :: size :: (bytes ++ rest)) (front.length + 2) =
      .ok (bytes.length + rest.length) := by
    rw [left, if_pos (by omega)]
    exact congrArg _ (by omega)
  rw [integer, refuseIf_bind_ok, byte_bind_ok]
  refine ⟨by omega, 0x02, hAt 0, ?_⟩
  rw [refuseIf_bind_ok, refuseIf_bind_ok, byte_bind_ok]
  refine ⟨by decide, by omega, size, hAt 1, ?_⟩
  rw [hLength']
  change (left _ (front.length + 2) >>= fun n => refuseIf (bytes.length > n) >>= fun _ => _) = _
  rw [hLeft]
  exact refuseIf_bind_ok.mpr ⟨by omega, rfl⟩

theorem number_append (front bytes rest : Bytes) :
    number (front ++ (bytes ++ rest)) front.length bytes.length = readBE bytes := by
  rw [number, List.drop_left, List.take_left]

end DerLax

/-- The lax parser reads the numbers that stand in two sequences of bytes, with any number of zeros in front. -/
theorem parseDerLax_append {R S rest : Bytes} {total sizeR sizeS : UInt8} (hTotal : ¬ total &&& 0x80 ≠ 0)
    (hR : sizeR.toNat = R.length) (hR' : R.length < 0x80) (hS : sizeS.toNat = S.length) (hS' : S.length < 0x80) :
    parseDerLax (0x30 :: total :: 0x02 :: sizeR :: (R ++ 0x02 :: sizeS :: (S ++ rest))) =
      .ok (if readBE R < curveOrder ∧ readBE S < curveOrder then (readBE R, readBE S) else (0, 0)) := by
  set input := 0x30 :: total :: 0x02 :: sizeR :: (R ++ 0x02 :: sizeS :: (S ++ rest)) with hInput
  have hSequence : DerLax.sequenceLength input total 2 = .ok 2 := by
    rw [DerLax.sequenceLength, if_neg hTotal]
    rfl
  have hIntR : DerLax.integer input 2 = .ok (4, R.length, 4 + R.length) :=
    DerLax.integer_append [0x30, total] R _ hR hR'
  have hIntS : DerLax.integer input (4 + R.length) = .ok (R.length + 6, S.length, R.length + 6 + S.length) := by
    rw [Nat.add_comm]
    exact DerLax.integer_append (0x30 :: total :: 0x02 :: sizeR :: R) S rest hS hS'
  have hLength : input.length = R.length + 6 + S.length + rest.length := by
    simp only [hInput, List.length_append, List.length_cons]
    omega
  have hNumR : DerLax.number input 4 R.length = readBE R :=
    DerLax.number_append [0x30, total, 0x02, sizeR] R _
  have hNumS : DerLax.number input (R.length + 6) S.length = readBE S := by
    have hNum := DerLax.number_append (0x30 :: total :: 0x02 :: sizeR :: (R ++ [0x02, sizeS])) S rest
    simp only [List.cons_append, List.append_assoc, List.nil_append, List.length_cons, List.length_append,
      List.length_nil] at hNum
    exact hNum
  rw [parseDerLax, refuseIf_bind_ok, byte_bind_ok]
  refine ⟨by omega, 0x30, rfl, ?_⟩
  rw [refuseIf_bind_ok, refuseIf_bind_ok, byte_bind_ok]
  refine ⟨by decide, by omega, total, rfl, ?_⟩
  rw [hSequence]
  change (DerLax.integer input 2 >>= _) = _
  rw [hIntR]
  change (DerLax.integer input (4 + R.length) >>= _) = _
  rw [hIntS]
  change (DerLax.value input 4 R.length >>= fun r => DerLax.value input (R.length + 6) S.length >>= fun s =>
    pure (DerLax.ofNumbers r s)) = _
  rw [DerLax.value_eq (by omega), DerLax.value_eq (by omega), hNumR, hNumS, ← DerLax.ofNumbers_eq]
  rfl

/-- The lax parser reads the two numbers back from their canonical encoding, whatever follows it, and takes them for
zeros if one of them is not below the order. -/
theorem parseDerLax_signature (r s : Nat) (rest : Bytes) (hShort : (Der.signature r s).length < 0x80) :
    parseDerLax (Der.signature r s ++ rest) = .ok (if r < curveOrder ∧ s < curveOrder then (r, s) else (0, 0)) := by
  rw [Der.length_signature] at hShort
  have hByte : ∀ {n : Nat}, n < 256 → (UInt8.ofNat n).toNat = n := UInt8.toNat_ofNat_of_lt'
  have hTotal : ¬ UInt8.ofNat ((Der.integerBytes r).length + (Der.integerBytes s).length + 4) &&& 0x80 ≠ 0 := by
    rw [not_not, and_0x80, hByte (by omega)]
    omega
  rw [Der.signature_append, parseDerLax_append hTotal (hByte (by omega)) (by omega) (hByte (by omega)) (by omega),
    Der.readBE_integerBytes, Der.readBE_integerBytes]

/-- The strict test and the lax parser agree. The test accepts exactly the canonical encodings of two numbers with a
hash type behind them, of at most 73 bytes; the parser reads these two numbers, or zeros if one of them is not below the
order of the group; and neither of them ever reads a byte that is not there. -/
theorem signature_encodings_agree :
    (∀ sig, isValidSignatureEncoding sig = .ok () ↔
      ∃ r s hashType, sig = Der.signature r s ++ [hashType] ∧ sig.length ≤ 73) ∧
    (∀ r s hashType, (Der.signature r s).length ≤ 72 →
      parseDerLax (Der.signature r s ++ [hashType]).dropLast =
        .ok (if r < curveOrder ∧ s < curveOrder then (r, s) else (0, 0))) ∧
    (∀ sig, isValidSignatureEncoding sig ≠ .error .outOfBounds) ∧
    ∀ input, parseDerLax input ≠ .error .outOfBounds ∧
      ∀ r s, parseDerLax input = .ok (r, s) → r < curveOrder ∧ s < curveOrder := by
  refine ⟨isValidSignatureEncoding_iff, ?_, fun sig => (Der.inside_isValidSignatureEncoding sig).1, ?_⟩
  · intro r s hashType hShort
    have hRead := parseDerLax_signature r s [] (by omega)
    rw [List.append_nil] at hRead
    rw [List.dropLast_concat, hRead]
  · intro input
    have hInside := parseDerLax_inside input
    exact ⟨hInside.1, fun r s hOk => hInside.2 (r, s) hOk⟩

end BitcoinGpuMiner
