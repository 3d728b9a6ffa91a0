import Mathlib.Algebra.Order.Ring.Int
import Std.Data.ExtTreeMap

/-! # 256-bit blobs and the byte order of fixed-width words

A blob is kept as the number whose base-256 digits are its bytes, first byte most
significant, so that the order of the numbers is the `memcmp` order that every
`std::map` and `std::set` keyed by a hash iterates in.
-/

namespace BitcoinGpuMiner

set_option autoImplicit false

abbrev Bytes := List UInt8

/-- The `count` low bytes of a number, least significant first. -/
def writeLE : Nat → Nat → Bytes
  | 0, _ => []
  | count + 1, n => UInt8.ofNat n :: writeLE count (n / 256)

def writeBE (count n : Nat) : Bytes := (writeLE count n).reverse

def readBE (bytes : Bytes) : Nat := bytes.foldl (fun acc b => acc * 256 + b.toNat) 0

def readLE (bytes : Bytes) : Nat := bytes.foldr (fun b acc => b.toNat + 256 * acc) 0

@[simp] theorem length_writeLE (count n : Nat) : (writeLE count n).length = count := by
  induction count generalizing n with
  | zero => rfl
  | succ count ih => simp only [writeLE, List.length_cons, ih]

@[simp] theorem length_writeBE (count n : Nat) : (writeBE count n).length = count := by
  rw [writeBE, List.length_reverse, length_writeLE]

structure Uint256 where
  val : Nat
  isLt : val < 2 ^ 256
deriving DecidableEq

namespace Uint256

def ofNat (n : Nat) : Uint256 := ⟨n % 2 ^ 256, Nat.mod_lt _ (Nat.two_pow_pos 256)⟩

def null : Uint256 := ofNat 0

def isNull (a : Uint256) : Bool := a.val == 0

def bytes (a : Uint256) : Bytes := writeBE 32 a.val

def ofBytes (b : Bytes) : Uint256 := ofNat (readBE b)

@[simp] theorem length_bytes (a : Uint256) : a.bytes.length = 32 := length_writeBE 32 a.val

@[ext] theorem ext {a b : Uint256} (h : a.val = b.val) : a = b := by
  cases a
  cases b
  cases h
  rfl

theorem isNull_iff (a : Uint256) : a.isNull = true ↔ a = null := by
  rw [isNull, beq_iff_eq, Uint256.ext_iff]
  rfl

/-- `base_blob::Compare`. -/
instance : Ord Uint256 := ⟨fun a b => compare a.val b.val⟩

instance : LT Uint256 := ⟨fun a b => a.val < b.val⟩

instance (a b : Uint256) : Decidable (a < b) := inferInstanceAs (Decidable (a.val < b.val))

theorem compare_eq (a b : Uint256) : compare a b = compare a.val b.val := rfl

theorem lt_iff (a b : Uint256) : a < b ↔ a.val < b.val := Iff.rfl

instance : Std.TransOrd Uint256 where
  eq_swap := Std.OrientedOrd.eq_swap (α := Nat)
  isLE_trans h k := Std.TransOrd.isLE_trans (α := Nat) h k

instance : Std.LawfulEqOrd Uint256 where
  eq_of_compare h := Uint256.ext (Nat.compare_eq_eq.mp h)

/-- `UintToArith256`: the bytes read least significant first. -/
def toArith (a : Uint256) : Nat := readLE a.bytes

/-- `ArithToUint256`, which is also what `uint256S` makes of a hexadecimal literal. -/
@[irreducible] def ofArith (n : Nat) : Uint256 := ofBytes (writeLE 32 n)

end Uint256

end BitcoinGpuMiner
