import BitcoinGpuMiner.Encoding.Serialize

/-! # Writing a number and reading it back -/

namespace BitcoinGpuMiner

set_option autoImplicit false

theorem ofNat_add_mul (d n : Nat) : UInt8.ofNat (d + 256 * n) = UInt8.ofNat d := by
  rw [← UInt8.ofNat_mod_size, ← UInt8.ofNat_mod_size (x := d)]
  congr 1
  omega

theorem readLE_cons (b : UInt8) (bytes : Bytes) : readLE (b :: bytes) = b.toNat + 256 * readLE bytes := rfl

theorem readLE_writeLE (count n : Nat) : readLE (writeLE count n) = n % 256 ^ count := by
  induction count generalizing n with
  | zero =>
    rw [Nat.pow_zero, Nat.mod_one, writeLE]
    rfl
  | succ count ih =>
    have hMul := Nat.mod_mul (x := n) (a := 256) (b := 256 ^ count)
    rw [← Nat.pow_succ'] at hMul
    rw [writeLE, readLE_cons, ih, UInt8.toNat_ofNat']
    exact hMul.symm

theorem writeLE_readLE (bytes : Bytes) : writeLE bytes.length (readLE bytes) = bytes := by
  induction bytes with
  | nil => rfl
  | cons b bytes ih =>
    have hLt := b.toNat_lt
    rw [readLE_cons, List.length_cons, writeLE, ofNat_add_mul, UInt8.ofNat_toNat,
      show (b.toNat + 256 * readLE bytes) / 256 = readLE bytes by omega, ih]

theorem readLE_lt (bytes : Bytes) : readLE bytes < 256 ^ bytes.length := by
  induction bytes with
  | nil => exact Nat.one_pos
  | cons b bytes ih =>
    have hLt := b.toNat_lt
    rw [readLE_cons, List.length_cons, Nat.pow_succ]
    omega

theorem readBE_eq (bytes : Bytes) : readBE bytes = readLE bytes.reverse := by
  rw [readBE, readLE, List.foldr_reverse]
  congr 1
  funext acc b
  omega

theorem readBE_writeBE (count n : Nat) : readBE (writeBE count n) = n % 256 ^ count := by
  rw [readBE_eq, writeBE, List.reverse_reverse, readLE_writeLE]

theorem writeBE_readBE (bytes : Bytes) : writeBE bytes.length (readBE bytes) = bytes := by
  rw [writeBE, readBE_eq, ← List.length_reverse, writeLE_readLE, List.reverse_reverse]

theorem Uint256.ofBytes_bytes (a : Uint256) : Uint256.ofBytes a.bytes = a := by
  apply Uint256.ext
  rw [Uint256.ofBytes, Uint256.bytes, readBE_writeBE, Uint256.ofNat]
  dsimp only
  rw [show 256 ^ 32 = 2 ^ 256 from rfl, Nat.mod_mod, Nat.mod_eq_of_lt a.isLt]

theorem Uint256.bytes_ofBytes {bytes : Bytes} (hLength : bytes.length = 32) : (Uint256.ofBytes bytes).bytes = bytes := by
  have hLt : readBE bytes < 2 ^ 256 := by
    have hBound := readLE_lt bytes.reverse
    rw [List.length_reverse, hLength, ← readBE_eq] at hBound
    exact Nat.lt_of_lt_of_eq hBound rfl
  rw [Uint256.bytes, Uint256.ofBytes, Uint256.ofNat]
  dsimp only
  rw [Nat.mod_eq_of_lt hLt, ← hLength, writeBE_readBE]

theorem length_flatMap_of_length {α : Type} {write : α → Bytes} {size : Nat} (hSize : ∀ item, (write item).length = size)
    (items : List α) : (items.flatMap write).length = size * items.length := by
  rw [List.length_flatMap, funext hSize, List.map_const', List.sum_replicate_nat, Nat.mul_comm]

theorem Uint256.length_flatMap_bytes (hashes : List Uint256) : (hashes.flatMap bytes).length = 32 * hashes.length :=
  length_flatMap_of_length length_bytes hashes

end BitcoinGpuMiner
