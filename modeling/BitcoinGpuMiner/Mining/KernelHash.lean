import BitcoinGpuMiner.Chain.Work
import BitcoinGpuMiner.Encoding.ByteOrder
import BitcoinGpuMiner.Model.GpuMiner
import BitcoinGpuMiner.Model.Kernel

/-! # The kernel computes the hash of the header

Word by word the kernel does what the processor's hash function does, so a work item returns the double hash of
the header with its nonce. The place where it writes the result is right as long as the index fits.
-/

namespace BitcoinGpuMiner

set_option autoImplicit false

namespace Kernel

section Words

theorem and_byte (x k : Nat) : x &&& (255 * 2 ^ k) = x / 2 ^ k % 256 * 2 ^ k := by
  apply Nat.eq_of_testBit_eq
  intro j
  rw [← Nat.shiftLeft_eq, ← Nat.shiftLeft_eq, Nat.testBit_and, Nat.testBit_shiftLeft, Nat.testBit_shiftLeft,
    ← Nat.shiftRight_eq_div_pow, show (256 : Nat) = 2 ^ 8 from rfl, Nat.testBit_mod_two_pow, Nat.testBit_shiftRight,
    show (255 : Nat) = 2 ^ 8 - 1 from rfl, Nat.testBit_two_pow_sub_one]
  rcases Nat.lt_or_ge j k with hLt | hGe
  · simp [Nat.not_le.mpr hLt]
  · rw [Nat.add_sub_cancel' hGe]
    cases x.testBit j <;> simp

theorem or_low (a : Nat) {b k : Nat} (hLow : b < 2 ^ k) : b ||| a * 2 ^ k = a * 2 ^ k + b := by
  rw [Nat.or_comm, ← Nat.shiftLeft_eq, Nat.shiftLeft_add_eq_or_of_lt hLow]

theorem digits {n d0 d1 d2 d3 : Nat} (h0 : d0 < 256) (h1 : d1 < 256) (h2 : d2 < 256) (h3 : d3 < 256)
    (hN : n = d0 + 256 * (d1 + 256 * (d2 + 256 * d3))) :
    n % 256 = d0 ∧ n / 256 % 256 = d1 ∧ n / 65536 % 256 = d2 ∧ n / 16777216 % 256 = d3 := by omega

theorem digits_shift {d0 d1 : Nat} (d2 : Nat) (h0 : d0 < 256) (h1 : d1 < 256) :
    d2 * 65536 / 256 = d2 * 256 ∧ d1 * 256 * 256 % 4294967296 = d1 * 65536 ∧
      d0 * 16777216 % 4294967296 = d0 * 16777216 := by omega

theorem digits_sum (d0 d1 d2 d3 : Nat) : d0 * 16777216 + (d1 * 65536 + (d2 * 256 + d3)) =
    d3 + 256 * (d2 + 256 * (d1 + 256 * d0)) := by omega

theorem digits_lt {d1 d2 d3 : Nat} (h1 : d1 < 256) (h2 : d2 < 256) (h3 : d3 < 256) :
    d2 * 2 ^ 8 + d3 < 2 ^ 16 ∧ d1 * 2 ^ 16 + (d2 * 2 ^ 8 + d3) < 2 ^ 24 := by omega

/-- `ToBE32` turns the four bytes round. -/
theorem toNat_toBE32 {x : UInt32} {d0 d1 d2 d3 : Nat} (h0 : d0 < 256) (h1 : d1 < 256) (h2 : d2 < 256) (h3 : d3 < 256)
    (hX : x.toNat = d0 + 256 * (d1 + 256 * (d2 + 256 * d3))) :
    (toBE32 x).toNat = d3 + 256 * (d2 + 256 * (d1 + 256 * d0)) := by
  obtain ⟨hDigit0, hDigit1, hDigit2, hDigit3⟩ := digits h0 h1 h2 h3 hX
  obtain ⟨hShift2, hShift1, hShift0⟩ := digits_shift d2 h0 h1
  obtain ⟨hMid, hHigh⟩ := digits_lt h1 h2 h3
  have hByte3 := and_byte x.toNat 24
  have hByte2 := and_byte x.toNat 16
  have hByte1 := and_byte x.toNat 8
  have hByte0 := and_byte x.toNat 0
  simp only [Nat.reducePow, Nat.reduceMul, Nat.mul_one, Nat.div_one, hDigit0, hDigit1, hDigit2, hDigit3]
    at hByte3 hByte2 hByte1 hByte0
  have hPart3 : ((x &&& 0xff000000) >>> 24).toNat = d3 := by
    rw [UInt32.toNat_shiftRight, UInt32.toNat_and, Nat.shiftRight_eq_div_pow]
    simp only [UInt32.reduceToNat, Nat.reduceMod, Nat.reducePow, hByte3]
    exact Nat.mul_div_cancel d3 (by decide)
  have hPart2 : ((x &&& 0x00ff0000) >>> 8).toNat = d2 * 2 ^ 8 := by
    rw [UInt32.toNat_shiftRight, UInt32.toNat_and, Nat.shiftRight_eq_div_pow]
    simp only [UInt32.reduceToNat, Nat.reduceMod, Nat.reducePow, hByte2]
    exact hShift2
  have hPart1 : ((x &&& 0x0000ff00) <<< 8).toNat = d1 * 2 ^ 16 := by
    rw [UInt32.toNat_shiftLeft, UInt32.toNat_and, Nat.shiftLeft_eq]
    simp only [UInt32.reduceToNat, Nat.reduceMod, Nat.reducePow, hByte1]
    exact hShift1
  have hPart0 : ((x &&& 0x000000ff) <<< 24).toNat = d0 * 2 ^ 24 := by
    rw [UInt32.toNat_shiftLeft, UInt32.toNat_and, Nat.shiftLeft_eq]
    simp only [UInt32.reduceToNat, Nat.reduceMod, Nat.reducePow, hByte0]
    exact hShift0
  rw [toBE32, UInt32.toNat_or, UInt32.toNat_or, UInt32.toNat_or, hPart3, hPart2, hPart1, hPart0,
    or_low d2 (show d3 < 2 ^ 8 from h3), or_low d1 hMid, or_low d0 hHigh]
  exact digits_sum d0 d1 d2 d3

theorem readBE32Ex_eq (b0 b1 b2 b3 : UInt8) (rest : Bytes) :
    (readBE32Ex (b0 :: b1 :: b2 :: b3 :: rest)).toNat = readBE [b0, b1, b2, b3] := by
  have hWord : (UInt32.ofNat (readLE [b0, b1, b2, b3])).toNat =
      b0.toNat + 256 * (b1.toNat + 256 * (b2.toNat + 256 * b3.toNat)) := by
    have h0 := b0.toNat_lt
    have h1 := b1.toNat_lt
    have h2 := b2.toNat_lt
    have h3 := b3.toNat_lt
    simp only [readLE, List.foldr, UInt32.toNat_ofNat']
    omega
  have hTake : (b0 :: b1 :: b2 :: b3 :: rest).take 4 = [b0, b1, b2, b3] := rfl
  rw [readBE32Ex, hTake, toNat_toBE32 b0.toNat_lt b1.toNat_lt b2.toNat_lt b3.toNat_lt hWord]
  simp only [readBE, List.foldl]
  omega

theorem writeLE_four {n d0 d1 d2 d3 : Nat} (h0 : d0 < 256) (h1 : d1 < 256) (h2 : d2 < 256)
    (hN : n = d0 + 256 * (d1 + 256 * (d2 + 256 * d3))) :
    writeLE 4 n = [UInt8.ofNat d0, UInt8.ofNat d1, UInt8.ofNat d2, UInt8.ofNat d3] := by
  have hDiv : ∀ {d : Nat} (m : Nat), d < 256 → (d + 256 * m) / 256 = m := by
    intro d m hd
    omega
  rw [hN, writeLE, ofNat_add_mul, hDiv _ h0, writeLE, ofNat_add_mul, hDiv _ h1, writeLE, ofNat_add_mul, hDiv _ h2,
    writeLE, writeLE]

theorem writeBE32Ex_eq (x : UInt32) : writeBE32Ex x = writeBE 4 x.toNat := by
  have hLt := x.toNat_lt
  obtain ⟨d0, d1, d2, d3, h0, h1, h2, h3, hX⟩ : ∃ d0 d1 d2 d3 : Nat, d0 < 256 ∧ d1 < 256 ∧ d2 < 256 ∧ d3 < 256 ∧
      x.toNat = d0 + 256 * (d1 + 256 * (d2 + 256 * d3)) :=
    ⟨x.toNat % 256, x.toNat / 256 % 256, x.toNat / 65536 % 256, x.toNat / 16777216, by omega, by omega, by omega,
      by omega, by omega⟩
  rw [writeBE32Ex, writeBE, writeLE_four h0 h1 h2 hX, writeLE_four h3 h2 h1 (toNat_toBE32 h0 h1 h2 h3 hX)]
  rfl

theorem toNat_rotr (x : UInt32) {n : Nat} (hPos : 0 < n) (hLt : n < 32) :
    (x >>> UInt32.ofNat n ||| x <<< UInt32.ofNat (32 - n)).toNat = Sha256.rotr x.toNat n := by
  have hRight : (UInt32.ofNat n).toNat % 32 = n := by
    rw [UInt32.toNat_ofNat']
    omega
  have hLeft : (UInt32.ofNat (32 - n)).toNat % 32 = 32 - n := by
    rw [UInt32.toNat_ofNat']
    omega
  rw [UInt32.toNat_or, UInt32.toNat_shiftRight, UInt32.toNat_shiftLeft, hRight, hLeft]
  rfl

theorem toNat_ch (x y z : UInt32) : (ch x y z).toNat = Sha256.ch x.toNat y.toNat z.toNat := by
  rw [ch, UInt32.toNat_xor, UInt32.toNat_and, UInt32.toNat_xor]
  rfl

theorem toNat_maj (x y z : UInt32) : (maj x y z).toNat = Sha256.maj x.toNat y.toNat z.toNat := by
  rw [maj, UInt32.toNat_or, UInt32.toNat_and, UInt32.toNat_and, UInt32.toNat_or]
  rfl

theorem toNat_rotrs (x : UInt32) (a b c : Nat) (hA : 0 < a ∧ a < 32) (hB : 0 < b ∧ b < 32) (hC : 0 < c ∧ c < 32) :
    ((x >>> UInt32.ofNat a ||| x <<< UInt32.ofNat (32 - a)) ^^^ (x >>> UInt32.ofNat b ||| x <<< UInt32.ofNat (32 - b)) ^^^
      (x >>> UInt32.ofNat c ||| x <<< UInt32.ofNat (32 - c))).toNat =
      Nat.xor (Nat.xor (Sha256.rotr x.toNat a) (Sha256.rotr x.toNat b)) (Sha256.rotr x.toNat c) := by
  rw [UInt32.toNat_xor, UInt32.toNat_xor, toNat_rotr x hA.1 hA.2, toNat_rotr x hB.1 hB.2, toNat_rotr x hC.1 hC.2]
  rfl

theorem toNat_rotrs_shift (x : UInt32) (a b c : Nat) (hA : 0 < a ∧ a < 32) (hB : 0 < b ∧ b < 32) (hC : c < 32) :
    ((x >>> UInt32.ofNat a ||| x <<< UInt32.ofNat (32 - a)) ^^^ (x >>> UInt32.ofNat b ||| x <<< UInt32.ofNat (32 - b)) ^^^
      x >>> UInt32.ofNat c).toNat =
      Nat.xor (Nat.xor (Sha256.rotr x.toNat a) (Sha256.rotr x.toNat b)) (Nat.shiftRight x.toNat c) := by
  have hShift : (UInt32.ofNat c).toNat % 32 = c := by
    rw [UInt32.toNat_ofNat']
    omega
  rw [UInt32.toNat_xor, UInt32.toNat_xor, toNat_rotr x hA.1 hA.2, toNat_rotr x hB.1 hB.2, UInt32.toNat_shiftRight, hShift]
  rfl

theorem toNat_bigSigma0 (x : UInt32) : (bigSigma0 x).toNat = Sha256.bigSigma0 x.toNat :=
  toNat_rotrs x 2 13 22 (by decide) (by decide) (by decide)

theorem toNat_bigSigma1 (x : UInt32) : (bigSigma1 x).toNat = Sha256.bigSigma1 x.toNat :=
  toNat_rotrs x 6 11 25 (by decide) (by decide) (by decide)

theorem toNat_sigma0 (x : UInt32) : (sigma0 x).toNat = Sha256.sigma0 x.toNat :=
  toNat_rotrs_shift x 7 18 3 (by decide) (by decide) (by decide)

theorem toNat_sigma1 (x : UInt32) : (sigma1 x).toNat = Sha256.sigma1 x.toNat :=
  toNat_rotrs_shift x 17 19 10 (by decide) (by decide) (by decide)

theorem toNat_add (x y : UInt32) : (x + y).toNat = Sha256.add32 x.toNat y.toNat := UInt32.toNat_add x y

end Words

section Rounds

def Registers.toState (r : Registers) : Sha256.State :=
  ⟨r.a.toNat, r.b.toNat, r.c.toNat, r.d.toNat, r.e.toNat, r.f.toNat, r.g.toNat, r.h.toNat⟩

/-- One round with the registers moved instead of renamed. -/
def step (r : Registers) (k w : UInt32) : Registers :=
  ⟨(round r.a r.b r.c r.d r.e r.f r.g r.h k w).2, r.a, r.b, r.c, (round r.a r.b r.c r.d r.e r.f r.g r.h k w).1,
    r.e, r.f, r.g⟩

theorem add32_assoc (x y z : Nat) : Sha256.add32 (Sha256.add32 x y) z = Sha256.add32 x (Sha256.add32 y z) := by
  change ((x + y) % 4294967296 + z) % 4294967296 = (x + (y + z) % 4294967296) % 4294967296
  omega

theorem toState_step (r : Registers) (k w : UInt32) :
    (step r k w).toState = Sha256.round r.toState (Sha256.add32 k.toNat w.toNat) := by
  simp only [step, round, Registers.toState, Sha256.round, toNat_add, toNat_bigSigma0, toNat_bigSigma1, toNat_ch,
    toNat_maj, add32_assoc]

theorem rounds8_eq (r : Registers) (k0 w0 k1 w1 k2 w2 k3 w3 k4 w4 k5 w5 k6 w6 k7 w7 : UInt32) :
    rounds8 r k0 w0 k1 w1 k2 w2 k3 w3 k4 w4 k5 w5 k6 w6 k7 w7 =
      step (step (step (step (step (step (step (step r k0 w0) k1 w1) k2 w2) k3 w3) k4 w4) k5 w5) k6 w6) k7 w7 := rfl

def Words.toWords (w : Words) : Sha256.Words :=
  ⟨w.w0.toNat, w.w1.toNat, w.w2.toNat, w.w3.toNat, w.w4.toNat, w.w5.toNat, w.w6.toNat, w.w7.toNat, w.w8.toNat,
    w.w9.toNat, w.w10.toNat, w.w11.toNat, w.w12.toNat, w.w13.toNat, w.w14.toNat, w.w15.toNat⟩

theorem toWords_next (w : Words) : w.next.toWords = w.toWords.next := by
  simp only [Words.next, Words.toWords, Sha256.Words.next, Sha256.updateWord, toNat_add, toNat_sigma0, toNat_sigma1]

theorem rounds16_eq (r : Registers) (w : Words) (k0 k1 k2 k3 k4 k5 k6 k7 k8 k9 k10 k11 k12 k13 k14 k15 : UInt32)
    (ks ws : List Nat) : Sha256.rounds ks ws
      (rounds16 r w k0 k1 k2 k3 k4 k5 k6 k7 k8 k9 k10 k11 k12 k13 k14 k15).toState =
    Sha256.rounds (k0.toNat :: k1.toNat :: k2.toNat :: k3.toNat :: k4.toNat :: k5.toNat :: k6.toNat :: k7.toNat ::
      k8.toNat :: k9.toNat :: k10.toNat :: k11.toNat :: k12.toNat :: k13.toNat :: k14.toNat :: k15.toNat :: ks)
      (w.toWords.toList ++ ws) r.toState := by
  simp only [rounds16, rounds8_eq, toState_step]
  rfl

theorem readWords_step {data : Bytes} (hLength : 4 ≤ data.length) :
    Sha256.readWords data = (readBE32Ex data).toNat :: Sha256.readWords (data.drop 4) := by
  match data, hLength with
  | b0 :: b1 :: b2 :: b3 :: rest, _ => rw [Sha256.readWords, readBE32Ex_eq, List.drop_succ_cons, List.drop_succ_cons,
      List.drop_succ_cons, List.drop_succ_cons, List.drop_zero]

theorem readWords_take (n : Nat) {data : Bytes} (hLength : 4 * n ≤ data.length) : Sha256.readWords (data.take (4 * n)) =
    (List.range n).map fun i => (readBE32Ex (data.drop (4 * i))).toNat := by
  induction n generalizing data with
  | zero => rfl
  | succ n ih =>
    have hTake : 4 ≤ (data.take (4 * (n + 1))).length := by
      rw [List.length_take]
      omega
    have hFirst : readBE32Ex (data.take (4 * (n + 1))) = readBE32Ex data := by
      rw [readBE32Ex, readBE32Ex, List.take_take, Nat.min_eq_left (by omega)]
    have hRest : 4 * n ≤ (data.drop 4).length := by
      rw [List.length_drop]
      omega
    rw [readWords_step hTake, hFirst, List.drop_take, show 4 * (n + 1) - 4 = 4 * n by omega, ih hRest,
      List.range_succ_eq_map, List.map_cons, List.map_map]
    congr 1
    apply List.map_congr_left
    intro i _
    rw [List.drop_drop, Function.comp, Nat.mul_succ, Nat.add_comm]

theorem toList_loadWords {chunk : Bytes} (hLength : 64 ≤ chunk.length) :
    Sha256.readWords (chunk.take 64) = (loadWords chunk).toWords.toList :=
  readWords_take 16 hLength

theorem expand_toList (w : Sha256.Words) : Sha256.expand w.toList =
    w.toList ++ (w.next.toList ++ (w.next.next.toList ++ (w.next.next.next.toList ++ []))) := by
  cases w
  rw [List.append_nil, Sha256.Words.toList, Sha256.expand]
  rfl

theorem toState_lines (r : Registers) (w : Words) : (lines r w).toState =
    Sha256.rounds Sha256.roundConstants (Sha256.expand w.toWords.toList) r.toState := by
  have hNone : ∀ r : Registers, r.toState = Sha256.rounds [] [] r.toState := fun _ => rfl
  rw [expand_toList, ← toWords_next, ← toWords_next, ← toWords_next]
  -- from the last sixteen rounds to the first ones
  rw [hNone, lines, rounds16_eq, rounds16_eq, rounds16_eq, rounds16_eq]
  congr 1

theorem toState_transform (s : Registers) {chunk : Bytes} (hLength : 64 ≤ chunk.length) :
    (transform s chunk).toState = Sha256.transform s.toState (chunk.take 64) := by
  rw [Sha256.transform, toList_loadWords hLength, ← toState_lines]
  simp only [transform, Registers.toState, toNat_add]

theorem toState_t (blocks : Nat) (s : Registers) {data : Bytes} (hLength : 64 * blocks ≤ data.length) :
    (t blocks s data).toState = Sha256.transformBlocks blocks s.toState data := by
  induction blocks generalizing s data with
  | zero => rfl
  | succ blocks ih =>
    have hRest : 64 * blocks ≤ (data.drop 64).length := by
      rw [List.length_drop]
      omega
    rw [t, ih _ hRest, toState_transform s (by omega), Sha256.transformBlocks]

theorem toState_reset : reset.toState = Sha256.initialState := rfl

theorem finalize_eq (s : Registers) : finalize s = Sha256.digest s.toState := by
  simp only [finalize, Sha256.digest, Registers.toState, writeBE32Ex_eq, List.flatMap_cons, List.flatMap_nil,
    List.append_nil, List.append_assoc]

end Rounds

section Hash

theorem finalize_t {message : Bytes} {blocks : Nat} (hLt : message.length < 2 ^ 64)
    (hLength : (message ++ Sha256.padding message.length).length = 64 * blocks) :
    finalize (t blocks reset (message ++ Sha256.padding message.length)) =
      Sha256.finalize (Sha256.write Sha256.reset message) := by
  rw [finalize_eq, toState_t blocks reset (Nat.le_of_eq hLength.symm), Sha256.finalize_write_reset hLt, hLength,
    Nat.mul_div_cancel_left blocks (by decide), toState_reset]

theorem length_finalize (s : Registers) : (finalize s).length = 32 := by
  rw [finalize_eq]
  simp [Sha256.digest]

theorem doHash_eq (data : Bytes) (blocks : Nat) {x y : Bytes} (hLength : x.length = 32) :
    doHash data blocks (x ++ y) = finalize (t blocks reset data) ++ y := by
  have hSame : x.length = (finalize (t blocks reset data)).length := by rw [hLength, length_finalize]
  exact memcpy_append [] y List.length_nil hSame

/-- How both sides pad: a marker after the message and the size at the end of the zeros. -/
theorem memcpy_pad {message size : Bytes} {n k : Nat} (hLength : message.length = n) (hSize : size.length = 8) :
    memcpy (memcpy (message ++ List.replicate (1 + k + 8) 0) n [0x80]) (n + (1 + k)) size =
      message ++ ((0x80 : UInt8) :: List.replicate k 0 ++ size) := by
  have hMark : memcpy (message ++ [0] ++ (List.replicate k 0 ++ List.replicate 8 0)) n [0x80] =
      message ++ [0x80] ++ (List.replicate k 0 ++ List.replicate 8 0) := memcpy_append message _ hLength rfl
  have hEnd : memcpy (message ++ [0x80] ++ List.replicate k 0 ++ List.replicate 8 0 ++ []) (n + (1 + k)) size =
      message ++ [0x80] ++ List.replicate k 0 ++ size ++ [] := by
    apply memcpy_append
    · rw [List.length_append, List.length_append, hLength, List.length_replicate, Nat.add_assoc]
      rfl
    · rw [hSize, List.length_replicate]
  rw [List.append_nil, List.append_nil] at hEnd
  rw [← List.replicate_append_replicate, ← List.replicate_append_replicate, List.append_assoc,
    ← List.append_assoc message, show List.replicate 1 (0 : UInt8) = [0] from rfl, hMark, ← List.append_assoc, hEnd,
    List.append_assoc, List.append_assoc]
  rfl

theorem bytes_btcDoubleSHA256 {pIn : Bytes} {nonceOffset globalId : UInt32} {message : Bytes}
    (hLength : message.length = 80)
    (hData : memcpy (pIn.take 128) 76 (writeLE 4 (globalId + nonceOffset).toNat) = message ++ Sha256.padding 80) :
    (btcDoubleSHA256 pIn nonceOffset globalId).bytes = (Sha256.doubleHash256 message).bytes := by
  have hFirst : finalize (t 2 reset (message ++ Sha256.padding 80)) = Sha256.finalize (Sha256.write Sha256.reset message) := by
    rw [← hLength]
    refine finalize_t (by rw [hLength]; decide) ?_
    rw [List.length_append, hLength]
    decide
  generalize hDigest : Sha256.finalize (Sha256.write Sha256.reset message) = hash at hFirst
  have hHash : hash.length = 32 := by rw [← hDigest, Sha256.length_finalize]
  have hSecond : finalize (t 1 reset (hash ++ Sha256.padding 32)) = Sha256.finalize (Sha256.write Sha256.reset hash) := by
    rw [← hHash]
    refine finalize_t (by rw [hHash]; decide) ?_
    rw [List.length_append, hHash]
    decide
  have hZeros : List.replicate 64 (0 : UInt8) = List.replicate 32 0 ++ List.replicate 32 0 := rfl
  have hWord : writeBE64Ex ((32 : UInt64) <<< 3) = writeBE 8 (32 <<< 3) := by decide
  have hPadded : memcpy (memcpy (hash ++ List.replicate 32 0) 32 [0x80]) 56 (writeBE64Ex ((32 : UInt64) <<< 3)) =
      hash ++ Sha256.padding 32 := by
    rw [hWord]
    exact memcpy_pad (k := 23) hHash (length_writeBE ..)
  rw [btcDoubleSHA256]
  simp only [UInt32.toUInt32_toInt32]
  rw [hData, hZeros, doHash_eq _ _ (List.length_replicate ..), hFirst, hPadded, doHash_eq _ _ hHash, hSecond,
    List.take_left' (Sha256.length_finalize _), Sha256.doubleHash256_eq, hDigest,
    Uint256.bytes_ofBytes (Sha256.length_finalize _)]

end Hash

end Kernel

namespace BlockHeader

/-- The fields in the order in which `SerializationOp` writes them; the count is left out under the hash. -/
def pieces (header : BlockHeader) : List Bytes :=
  [writeInt 4 header.nVersion, header.hashPrevBlock.bytes, header.hashMerkleRoot.bytes, writeLE 4 header.nTime.toNat,
    writeLE 4 header.nBits.toNat, writeLE 4 header.nNonce.toNat]

/-- `GetHash` through a `CHashWriter` whose buffer held `garbage`. -/
def streamedHash (garbage : Bytes) (header : BlockHeader) : Uint256 := Sha256.Stream.hashPieces garbage header.pieces

theorem streamedHash_eq {garbage : Bytes} (hGarbage : garbage.length = 64) (header : BlockHeader) :
    header.streamedHash garbage = header.getHash := by
  rw [streamedHash, pieces, Sha256.Stream.hashPieces_eq hGarbage, getHash, serialize]
  simp only [List.flatten_cons, List.flatten_nil, List.append_nil, List.append_assoc]

def front (header : BlockHeader) : Bytes :=
  writeInt 4 header.nVersion ++ header.hashPrevBlock.bytes ++ header.hashMerkleRoot.bytes ++
    writeLE 4 header.nTime.toNat ++ writeLE 4 header.nBits.toNat

theorem serialize_eq (header : BlockHeader) : header.serialize = header.front ++ writeLE 4 header.nNonce.toNat := rfl

theorem length_front (header : BlockHeader) : header.front.length = 76 := by simp [front]

def kernelInput (header : BlockHeader) : Bytes := padBlockHaderData (memcpy (List.replicate 128 0) 0 header.serialize)

theorem kernelInput_eq (header : BlockHeader) : header.kernelInput = header.serialize ++ Sha256.padding 80 := by
  have hLength := header.length_serialize
  have hCopied : memcpy ([] ++ List.replicate 80 0 ++ List.replicate 48 0) 0 header.serialize =
      [] ++ header.serialize ++ List.replicate 48 0 := by
    apply memcpy_append
    · exact List.length_nil
    · rw [hLength, List.length_replicate]
  have hCleared : memcpy (header.serialize ++ List.replicate 48 0 ++ []) 80 (List.replicate 48 0) =
      header.serialize ++ List.replicate 48 0 ++ [] := by
    apply memcpy_append
    · exact hLength
    · rfl
  rw [List.nil_append, List.replicate_append_replicate, List.nil_append] at hCopied
  rw [List.append_nil] at hCleared
  rw [kernelInput, padBlockHaderData, hCopied, hCleared]
  exact Kernel.memcpy_pad (k := 39) hLength (length_writeBE ..)

/-- The bytes a work item returns are the hash of the header with its nonce. -/
theorem bytes_kernel (header : BlockHeader) (nonceOffset globalId : UInt32) :
    (Kernel.btcDoubleSHA256 header.kernelInput nonceOffset globalId).bytes =
      (getHash { header with nNonce := nonceOffset + globalId }).bytes := by
  have hPadding : (Sha256.padding 80).length = 48 := by decide
  have hLength : header.kernelInput.length = 80 + 48 := by
    rw [kernelInput_eq, List.length_append, header.length_serialize, hPadding]
  have hTake : header.kernelInput.take 128 = header.kernelInput :=
    List.take_of_length_le (Nat.le_of_eq hLength)
  have hData : memcpy (header.kernelInput.take 128) 76 (writeLE 4 (globalId + nonceOffset).toNat) =
      serialize { header with nNonce := nonceOffset + globalId } ++ Sha256.padding 80 := by
    have hSame : (writeLE 4 header.nNonce.toNat).length = (writeLE 4 (globalId + nonceOffset).toNat).length := by
      rw [length_writeLE, length_writeLE]
    rw [hTake, kernelInput_eq, serialize_eq, memcpy_append _ _ header.length_front hSame, serialize_eq,
      UInt32.add_comm]
    rfl
  rw [Kernel.bytes_btcDoubleSHA256 (length_serialize _) hData, getHash]

end BlockHeader

section Place

theorem toNat_toUInt64 (x : Int64) : (x.toUInt64.toNat : Int) = x.toInt % 2 ^ 64 := by
  have hLt := x.toUInt64.toNat_lt
  have hInt : x.toInt = (x.toUInt64.toNat : Int).bmod (2 ^ 64) := by
    simp [Int64.toInt, BitVec.toInt_eq_toNat_bmod]
    rfl
  rw [hInt, Int.bmod_def]
  omega

theorem toInt_mul_32 (globalId : UInt32) : (globalId.toInt32 * 32).toInt = ((globalId.toNat : Int) * 32).bmod (2 ^ 32) := by
  have hInt : globalId.toInt32.toInt = (globalId.toNat : Int).bmod (2 ^ 32) := by
    simp [Int32.toInt, BitVec.toInt_eq_toNat_bmod]
  have hSize : (32 : Int32).toInt = 32 := by decide
  rw [Int32.toInt_mul, hInt, hSize, Int.bmod_mul_bmod]

/-- The product is right as long as it is below `2 ^ 31`. -/
theorem Kernel.offset_iff (pIn : Bytes) (nonceOffset globalId : UInt32) :
    (btcDoubleSHA256 pIn nonceOffset globalId).offset.toNat = 32 * globalId.toNat ↔ globalId.toNat < 2 ^ 26 := by
  have hLt := globalId.toNat_lt
  have hOffset := toNat_toUInt64 ((globalId.toInt32 * 32).toInt64)
  rw [Int32.toInt_toInt64, toInt_mul_32, Int.bmod_def] at hOffset
  change (globalId.toInt32 * 32).toInt64.toUInt64.toNat = 32 * globalId.toNat ↔ _
  omega

end Place

namespace Kernel

theorem launch_succ (pIn : Bytes) (nonceOffset : UInt32) (count : Nat) (pOut : Bytes) :
    launch pIn nonceOffset (count + 1) pOut =
      memcpy (launch pIn nonceOffset count pOut) (btcDoubleSHA256 pIn nonceOffset (UInt32.ofNat count)).offset.toNat
        (btcDoubleSHA256 pIn nonceOffset (UInt32.ofNat count)).bytes := by
  rw [launch, List.range_succ, List.foldl_append]
  rfl

theorem batchResults_succ (header : BlockHeader) (nonceOffset : UInt32) (count : Nat) :
    batchResults header nonceOffset (count + 1) = batchResults header nonceOffset count ++
      [BlockHeader.getHash { header with nNonce := nonceOffset + UInt32.ofNat count }] := by
  rw [batchResults, List.range_succ, List.map_append]
  rfl

theorem length_batchResults (header : BlockHeader) (nonceOffset : UInt32) (count : Nat) :
    (batchResults header nonceOffset count).length = count := by rw [batchResults, List.length_map, List.length_range]

/-- The items before `count` have written their hashes, and the rest of the buffer is as it was. -/
theorem launch_eq (header : BlockHeader) (nonceOffset : UInt32) {count : Nat} {pOut : Bytes} (hSmall : count ≤ 2 ^ 26)
    (hLength : 32 * count ≤ pOut.length) : launch header.kernelInput nonceOffset count pOut =
      (batchResults header nonceOffset count).flatMap Uint256.bytes ++ pOut.drop (32 * count) := by
  induction count with
  | zero => rfl
  | succ count ih =>
    have hId : (UInt32.ofNat count).toNat = count := UInt32.toNat_ofNat_of_lt' (by simp only [UInt32.size]; omega)
    have hOffset : (btcDoubleSHA256 header.kernelInput nonceOffset (UInt32.ofNat count)).offset.toNat = 32 * count := by
      rw [(offset_iff ..).mpr (by omega), hId]
    have hRest : pOut.drop (32 * count) = (pOut.drop (32 * count)).take 32 ++ pOut.drop (32 * (count + 1)) := by
      rw [Nat.mul_succ, ← List.drop_drop, List.take_append_drop]
    rw [launch_succ, ih (by omega) (by omega), hOffset, header.bytes_kernel, batchResults_succ, List.flatMap_append,
      hRest, ← List.append_assoc, List.flatMap_singleton]
    apply memcpy_append
    · rw [Uint256.length_flatMap_bytes, length_batchResults]
    · rw [Uint256.length_bytes, List.length_take, List.length_drop]
      omega

theorem readResults_flatMap (hashes : List Uint256) (rest : Bytes) :
    readResults hashes.length (hashes.flatMap Uint256.bytes ++ rest) = hashes := by
  induction hashes with
  | nil => rfl
  | cons hash hashes ih =>
    rw [List.flatMap_cons, List.append_assoc, List.length_cons, readResults,
      List.take_left' hash.length_bytes, List.drop_left' hash.length_bytes, ih, Uint256.ofBytes_bytes]

/-- What the mining loop takes for the results of a batch is what the device computes, up to `2 ^ 26` work items. -/
theorem readResults_launch (header : BlockHeader) (nonceOffset : UInt32) {count : Nat} {pOut : Bytes}
    (hSmall : count ≤ 2 ^ 26) (hLength : pOut.length = 32 * count) :
    readResults count (launch header.kernelInput nonceOffset count pOut) = batchResults header nonceOffset count := by
  have hRead := readResults_flatMap (batchResults header nonceOffset count) (pOut.drop (32 * count))
  rw [length_batchResults, ← launch_eq header nonceOffset hSmall (Nat.le_of_eq hLength.symm)] at hRead
  exact hRead

end Kernel

/-- A work item does for the miner what `GetHash` does: its bytes are the hash of the header with its nonce, they
are where the host looks for them, and a nonce that is chosen for them passes `CheckProofOfWork`. -/
structure DeviceAgrees (header : BlockHeader) (nonceOffset globalId : UInt32) : Prop where
  place : (Kernel.btcDoubleSHA256 header.kernelInput nonceOffset globalId).offset.toNat = 32 * globalId.toNat
  bytes : ∀ garbage : Bytes, garbage.length = 64 →
    (Kernel.btcDoubleSHA256 header.kernelInput nonceOffset globalId).bytes =
      (BlockHeader.streamedHash garbage { header with nNonce := nonceOffset + globalId }).bytes
  work : (Uint256.ofBytes (Kernel.btcDoubleSHA256 header.kernelInput nonceOffset globalId).bytes).toArith ≤
      (setCompact header.nBits).target →
    checkProofOfWork (BlockHeader.getHash { header with nNonce := nonceOffset + globalId }) header.nBits = true

theorem deviceAgrees_iff (header : BlockHeader) (nonceOffset globalId : UInt32) :
    DeviceAgrees header nonceOffset globalId ↔ globalId.toNat < 2 ^ 26 ∧
      ((BlockHeader.getHash { header with nNonce := nonceOffset + globalId }).toArith ≤ (setCompact header.nBits).target →
        TargetInRange header.nBits) := by
  have hBytes := header.bytes_kernel nonceOffset globalId
  have hHash : Uint256.ofBytes (Kernel.btcDoubleSHA256 header.kernelInput nonceOffset globalId).bytes =
      BlockHeader.getHash { header with nNonce := nonceOffset + globalId } := by rw [hBytes, Uint256.ofBytes_bytes]
  constructor
  · rintro ⟨hPlace, -, hWork⟩
    refine ⟨(Kernel.offset_iff ..).mp hPlace, ?_⟩
    intro hMeets
    rw [hHash] at hWork
    exact ((checkProofOfWork_iff ..).mp (hWork hMeets)).1
  · rintro ⟨hSmall, hRange⟩
    refine ⟨(Kernel.offset_iff ..).mpr hSmall, ?_, ?_⟩
    · intro garbage hGarbage
      rw [BlockHeader.streamedHash_eq hGarbage, hBytes]
    · intro hMeets
      rw [hHash] at hMeets
      exact (checkProofOfWork_iff ..).mpr ⟨hRange hMeets, hMeets⟩

/-- The work item `2 ^ 27` writes where item `0` does. -/
theorem exists_misplaced : ∃ (header : BlockHeader) (nonceOffset globalId : UInt32),
    (Kernel.btcDoubleSHA256 header.kernelInput nonceOffset globalId).offset.toNat = 0 ∧ globalId.toNat = 2 ^ 27 ∧
      ¬ DeviceAgrees header nonceOffset globalId := by
  refine ⟨Block.null.toBlockHeader, 0, 134217728, by decide, by decide, ?_⟩
  intro hAgrees
  have hPlace := hAgrees.place
  rw [Kernel.offset_iff] at hPlace
  exact absurd hPlace (by decide)

end BitcoinGpuMiner
