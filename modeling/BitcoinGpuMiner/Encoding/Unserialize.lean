import BitcoinGpuMiner.Encoding.ByteOrder
import BitcoinGpuMiner.Encoding.Serialize
import BitcoinGpuMiner.Foundation.Cursor

/-! # Reading what was serialized

`NetMessageData::read` returns in silence when the buffer has too few bytes, so a number is then whatever its
uninitialised variable held: `stale` stands for that memory, and a cursor is marked once it has happened.
-/

namespace BitcoinGpuMiner

open Foundation

set_option autoImplicit false

/-- The exceptions that reading can throw. -/
inductive ReadFault where
  | nonCanonical
  | tooLarge
  | limitExceeded
deriving DecidableEq

abbrev Reader (α : Type) := Parser ReadFault UInt8 α

def maxSize : Nat := 0x02000000

/-- `Uint256::Unserialize`, into a null hash. -/
def readUint256 : Reader Uint256 := do
  let data ← Parser.read (List.replicate 32 0)
  pure (Uint256.ofBytes data)

/-- The loop over the pieces of a byte vector; there are at most as many as there are bytes. -/
def readChunks : Nat → Nat → Reader Bytes
  | 0, _ => pure []
  | fuel + 1, size =>
    if size = 0 then pure []
    else do
      let blk := min size 5000000
      let chunk ← Parser.read (List.replicate blk 0)
      let rest ← readChunks fuel (size - blk)
      pure (chunk ++ rest)

/-- A vector or string that has grown to a size; it never shrinks here. -/
def resize (data : Bytes) (size : Nat) : Bytes := data ++ List.replicate (size - data.length) 0

section Numbers

variable (stale : Nat → UInt8)

/-- `ser_readdata8` to `ser_readdata64`. -/
def readData (count : Nat) : Reader Nat := do
  let obj ← Parser.read ((List.range count).map stale)
  pure (readLE obj)

def readInt (count : Nat) : Reader Int := do
  let n ← readData stale count
  pure (Int.bmod n (2 ^ (8 * count)))

def readUInt32 : Reader UInt32 := do
  let n ← readData stale 4
  pure (UInt32.ofNat n)

/-- A size of the given width must not fit the next smaller one. -/
def readLongSize (count least : Nat) : Reader Nat := do
  let nSizeRet ← readData stale count
  if nSizeRet < least then throw .nonCanonical else pure nSizeRet

/-- The size that a first byte announces. -/
def readSize (chSize : Nat) : Reader Nat :=
  if chSize < 253 then pure chSize
  else if chSize = 253 then readLongSize stale 2 253
  else if chSize = 254 then readLongSize stale 4 0x10000
  else readLongSize stale 8 0x100000000

def readCompactSize : Reader Nat := do
  let chSize ← readData stale 1
  let nSizeRet ← readSize stale chSize
  if nSizeRet > maxSize then throw .tooLarge else pure nSizeRet

/-- Scripts and witness items. -/
def readBytes : Reader Bytes := do
  let nSize ← readCompactSize stale
  readChunks nSize nSize

def readVector {α : Type} (item : Reader α) : Reader (List α) := do
  let nSize ← readCompactSize stale
  Parser.many item nSize

/-- `LimitedString`, into a string that keeps its first bytes when it is resized. -/
def readLimitedString (limit : Nat) (old : Bytes) : Reader Bytes := do
  let size ← readCompactSize stale
  if size > limit then throw .limitExceeded else Parser.read (resize (old.take size) size)

end Numbers

section Reads

variable {stale : Nat → UInt8}

theorem readsFrom_uint256 (a : Uint256) : ReadsFrom readUint256 0 a.bytes a := by
  have hRead : ReadsFrom (Parser.read (List.replicate 32 0) : Reader Bytes) 0 a.bytes a.bytes :=
    ReadsFrom.target (by rw [List.length_replicate, Uint256.length_bytes])
  have hMap : ReadsFrom readUint256 0 a.bytes (Uint256.ofBytes a.bytes) := hRead.map
  rw [Uint256.ofBytes_bytes] at hMap
  exact hMap

theorem reads_uint256 (a : Uint256) : Reads readUint256 a.bytes a := (readsFrom_uint256 a).reads (Nat.zero_le _)

theorem reads_data {count n : Nat} (hLt : n < 256 ^ count) : Reads (readData stale count) (writeLE count n) n := by
  have hRead : Reads (Parser.read ((List.range count).map stale) : Reader Bytes) (writeLE count n) (writeLE count n) :=
    Reads.target (by rw [List.length_map, List.length_range, length_writeLE])
  have hMap : Reads (readData stale count) (writeLE count n) (readLE (writeLE count n)) := hRead.map
  rw [readLE_writeLE, Nat.mod_eq_of_lt hLt] at hMap
  exact hMap

theorem bmod_toNat_emod {m : Nat} {n : Int} (hPos : 0 < m) (hLow : -(m : Int) ≤ 2 * n) (hHigh : 2 * n < m) :
    Int.bmod ((n % m).toNat : Int) m = n := by
  have hNonneg : 0 ≤ n % (m : Int) := Int.emod_nonneg n (by omega)
  rw [Int.toNat_of_nonneg hNonneg, Int.emod_bmod]
  exact Int.bmod_eq_of_le_mul_two (by omega) (by omega)

theorem reads_int {count : Nat} {n : Int} (hLow : -(2 ^ (8 * count) : Nat) ≤ 2 * n)
    (hHigh : 2 * n < (2 ^ (8 * count) : Nat)) : Reads (readInt stale count) (writeInt count n) n := by
  have hPos : 0 < 2 ^ (8 * count) := Nat.two_pow_pos _
  have hCast : (2 : Int) ^ (8 * count) = ((2 ^ (8 * count) : Nat) : Int) := by simp
  have hLt : (n % (2 ^ (8 * count) : Nat)).toNat < 256 ^ count := by
    have hMod := Int.emod_lt_of_pos n (Int.natCast_pos.mpr hPos)
    rw [show 256 = 2 ^ 8 from rfl, ← Nat.pow_mul]
    omega
  rw [writeInt, hCast]
  have hMap : Reads (readInt stale count) (writeLE count (n % (2 ^ (8 * count) : Nat)).toNat)
    (Int.bmod ((n % (2 ^ (8 * count) : Nat)).toNat : Int) (2 ^ (8 * count))) := (reads_data hLt).map
  rw [bmod_toNat_emod hPos hLow hHigh] at hMap
  exact hMap

theorem reads_uint32 (n : UInt32) : Reads (readUInt32 stale) (writeLE 4 n.toNat) n := by
  have hData : Reads (readData stale 4) (writeLE 4 n.toNat) n.toNat := reads_data n.toNat_lt
  have hMap : Reads (readUInt32 stale) (writeLE 4 n.toNat) (UInt32.ofNat n.toNat) := hData.map
  rw [UInt32.ofNat_toNat] at hMap
  exact hMap

theorem reads_longSize {count least n : Nat} (hLeast : least ≤ n) (hLt : n < 256 ^ count) :
    Reads (readLongSize stale count least) (writeLE count n) n := by
  have hRest : Reads (if n < least then throw .nonCanonical else pure n : Reader Nat) [] n := by
    rw [if_neg (Nat.not_lt.mpr hLeast)]
    exact Reads.ret n
  have hBoth : Reads (readLongSize stale count least) (writeLE count n ++ []) n := (reads_data hLt).bind hRest
  rw [List.append_nil] at hBoth
  exact hBoth

theorem reads_compactSize {n : Nat} (hSize : n ≤ maxSize) : Reads (readCompactSize stale) (writeCompactSize n) n := by
  have hMax : maxSize = 0x02000000 := rfl
  have hEnd : Reads (if n > maxSize then throw .tooLarge else pure n : Reader Nat) [] n := by
    rw [if_neg (Nat.not_lt.mpr hSize)]
    exact Reads.ret n
  have hBranch {chSize : Nat} {first rest : Bytes} (hFirst : Reads (readData stale 1) first chSize)
      (hRest : Reads (readSize stale chSize) rest n) : Reads (readCompactSize stale) (first ++ rest) n := by
    have hAll : Reads (readCompactSize stale) (first ++ (rest ++ [])) n := hFirst.bind (hRest.bind hEnd)
    rw [List.append_nil] at hAll
    exact hAll
  rw [writeCompactSize]
  split
  case isTrue hSmall =>
    have hFirst : Reads (readData stale 1) (writeLE 1 n) n := reads_data (by omega)
    have hOne := hBranch hFirst (by rw [readSize, if_pos hSmall]; exact Reads.ret n)
    rw [List.append_nil] at hOne
    exact hOne
  split
  case isTrue hLeast hShort =>
    have hFirst : Reads (readData stale 1) [253] 253 := reads_data (by decide)
    exact hBranch hFirst (reads_longSize (by omega) (by omega))
  split
  case isTrue hLeast hLong =>
    have hFirst : Reads (readData stale 1) [254] 254 := reads_data (by decide)
    exact hBranch hFirst (reads_longSize (by omega) (by omega))
  case isFalse hHuge => omega

theorem reads_chunks {fuel : Nat} (data : Bytes) (hFuel : data.length ≤ fuel) :
    Reads (readChunks fuel data.length) data data := by
  induction fuel generalizing data with
  | zero =>
    rw [List.length_eq_zero_iff.mp (Nat.le_zero.mp hFuel)]
    exact Reads.ret []
  | succ fuel ih =>
    rw [readChunks]
    split
    case isTrue hNone =>
      rw [List.length_eq_zero_iff.mp hNone]
      exact Reads.ret []
    case isFalse hSome =>
      have hFirst : (data.take (min data.length 5000000)).length = min data.length 5000000 := by
        rw [List.length_take]
        omega
      have hRest : (data.drop (min data.length 5000000)).length = data.length - min data.length 5000000 :=
        List.length_drop
      have hChunk : Reads (Parser.read (List.replicate (min data.length 5000000) 0) : Reader Bytes)
          (data.take (min data.length 5000000)) (data.take (min data.length 5000000)) :=
        Reads.target (by rw [List.length_replicate, hFirst])
      have hNext := ih (data.drop (min data.length 5000000)) (by omega)
      rw [hRest] at hNext
      have hBoth : Reads (Parser.read (List.replicate (min data.length 5000000) 0) >>= fun chunk =>
            readChunks fuel (data.length - min data.length 5000000) >>= fun rest => pure (chunk ++ rest))
          (data.take (min data.length 5000000) ++ data.drop (min data.length 5000000))
          (data.take (min data.length 5000000) ++ data.drop (min data.length 5000000)) := hChunk.bind hNext.map
      rw [List.take_append_drop] at hBoth
      exact hBoth

theorem reads_bytes {data : Bytes} (hSize : data.length ≤ maxSize) : Reads (readBytes stale) (writeBytes data) data :=
  (reads_compactSize hSize).bind (reads_chunks data (Nat.le_refl _))

theorem reads_vector {ι α : Type} {item : Reader α} {write : ι → Bytes} {value : ι → α} {items : List ι}
    (hSize : items.length ≤ maxSize) (hItems : ∀ a ∈ items, Reads item (write a) (value a)) :
    Reads (readVector stale item) (writeVector write items) (items.map value) :=
  (reads_compactSize hSize).bind (Reads.many items hItems)

theorem reads_vector_self {α : Type} {item : Reader α} {write : α → Bytes} {items : List α}
    (hSize : items.length ≤ maxSize) (hItems : ∀ a ∈ items, Reads item (write a) a) :
    Reads (readVector stale item) (writeVector write items) items := by
  have hReads : Reads (readVector stale item) (writeVector write items) (items.map fun a => a) :=
    reads_vector hSize hItems
  rw [List.map_id'] at hReads
  exact hReads

end Reads

section Consumes

variable {stale : Nat → UInt8}

theorem consumes_uint256 : Consumes readUint256 (fun a w => w = a.bytes) := by
  refine (Consumes.target (List.replicate 32 0)).map.mono ?_
  rintro a w ⟨data, rfl, rfl, hLength⟩
  rw [List.length_replicate] at hLength
  rw [Uint256.bytes_ofBytes hLength]

theorem consumes_data (count : Nat) :
    Consumes (readData stale count) (fun n w => w = writeLE count n ∧ n < 256 ^ count) := by
  refine (Consumes.target ((List.range count).map stale)).map.mono ?_
  rintro n w ⟨obj, rfl, rfl, hLength⟩
  rw [List.length_map, List.length_range] at hLength
  have hWrite := writeLE_readLE obj
  have hLt := readLE_lt obj
  rw [hLength] at hWrite hLt
  exact ⟨hWrite.symm, hLt⟩

theorem writeInt_bmod {count n : Nat} (hLt : n < 256 ^ count) :
    writeInt count (Int.bmod n (2 ^ (8 * count))) = writeLE count n := by
  have hPow : 256 ^ count = 2 ^ (8 * count) := by rw [show 256 = 2 ^ 8 from rfl, ← Nat.pow_mul]
  have hCast : (2 : Int) ^ (8 * count) = ((2 ^ (8 * count) : Nat) : Int) := by simp
  rw [hPow] at hLt
  rw [writeInt, hCast, Int.bmod_emod, ← Int.natCast_emod, Int.toNat_natCast, Nat.mod_eq_of_lt hLt]

theorem consumes_int (count : Nat) : Consumes (readInt stale count) (fun n w => w = writeInt count n ∧
    -(2 ^ (8 * count) : Nat) ≤ 2 * n ∧ 2 * n < (2 ^ (8 * count) : Nat)) := by
  refine (consumes_data count).map.mono ?_
  rintro i w ⟨n, rfl, rfl, hLt⟩
  have hPos : 0 < 2 ^ (8 * count) := Nat.two_pow_pos _
  have hLow := Int.le_bmod (x := n) hPos
  have hHigh := Int.bmod_lt (x := n) hPos
  exact ⟨(writeInt_bmod hLt).symm, by omega, by omega⟩

theorem consumes_uint32 : Consumes (readUInt32 stale) (fun n w => w = writeLE 4 n.toNat) := by
  refine (consumes_data 4).map.mono ?_
  rintro i w ⟨n, rfl, rfl, hLt⟩
  rw [UInt32.toNat_ofNat_of_lt' hLt]

theorem consumes_longSize (count least : Nat) : Consumes (readLongSize stale count least)
    (fun n w => w = writeLE count n ∧ least ≤ n ∧ n < 256 ^ count) := by
  have hRest (n : Nat) : Consumes (if n < least then throw .nonCanonical else pure n : Reader Nat)
      (fun m w => (m = n ∧ w = []) ∧ least ≤ n) := by
    split
    case isTrue => exact Consumes.fault _
    case isFalse hLeast => exact (Consumes.ret n).mono fun m w hRel => ⟨hRel, Nat.not_lt.mp hLeast⟩
  refine ((consumes_data count).bind hRest).mono ?_
  rintro m w ⟨n, w₁, w₂, ⟨rfl, hLt⟩, ⟨⟨rfl, rfl⟩, hLeast⟩, rfl⟩
  exact ⟨List.append_nil _, hLeast, hLt⟩

/-- The four forms of a size do not overlap, so what was read is what would be written. -/
theorem consumes_size (chSize : Nat) : Consumes (readSize stale chSize)
    (fun n w => chSize < 256 → writeLE 1 chSize ++ w = writeCompactSize n) := by
  rw [readSize]
  split
  case isTrue hSmall =>
    refine (Consumes.ret chSize).mono ?_
    rintro n w ⟨rfl, rfl⟩ -
    rw [writeCompactSize, if_pos hSmall, List.append_nil]
  split
  case isTrue hLarge hTwo =>
    refine (consumes_longSize 2 253).mono ?_
    rintro n w ⟨rfl, hLeast, hLt⟩ -
    rw [writeCompactSize, if_neg (by omega), if_pos (by omega), hTwo]
    rfl
  split
  case isTrue hLarge hTwo hFour =>
    refine (consumes_longSize 4 0x10000).mono ?_
    rintro n w ⟨rfl, hLeast, hLt⟩ -
    rw [writeCompactSize, if_neg (by omega), if_neg (by omega), if_pos (by omega), hFour]
    rfl
  case isFalse hLarge hTwo hFour =>
    refine (consumes_longSize 8 0x100000000).mono ?_
    rintro n w ⟨rfl, hLeast, hLt⟩ hByte
    rw [writeCompactSize, if_neg (by omega), if_neg (by omega), if_neg (by omega), show chSize = 255 by omega]
    rfl

theorem consumes_compactSize : Consumes (readCompactSize stale) (fun n w => w = writeCompactSize n ∧ n ≤ maxSize) := by
  have hEnd (n : Nat) : Consumes (if n > maxSize then throw .tooLarge else pure n : Reader Nat)
      (fun m w => (m = n ∧ w = []) ∧ n ≤ maxSize) := by
    split
    case isTrue => exact Consumes.fault _
    case isFalse hSmall => exact (Consumes.ret n).mono fun m w hRel => ⟨hRel, Nat.not_lt.mp hSmall⟩
  refine ((consumes_data 1).bind fun chSize => (consumes_size chSize).bind hEnd).mono ?_
  rintro m w ⟨chSize, _, _, ⟨rfl, hByte⟩, ⟨n, w, _, hSize, ⟨⟨rfl, rfl⟩, hMax⟩, rfl⟩, rfl⟩
  rw [List.append_nil]
  exact ⟨hSize hByte, hMax⟩

theorem consumes_chunks {fuel size : Nat} (hFuel : size ≤ fuel) :
    Consumes (readChunks fuel size) (fun data w => w = data ∧ data.length = size) := by
  induction fuel generalizing size with
  | zero =>
    refine (Consumes.ret []).mono ?_
    rintro data w ⟨rfl, rfl⟩
    exact ⟨rfl, (Nat.le_zero.mp hFuel).symm⟩
  | succ fuel ih =>
    rw [readChunks]
    split
    case isTrue hNone =>
      refine (Consumes.ret []).mono ?_
      rintro data w ⟨rfl, rfl⟩
      exact ⟨rfl, hNone.symm⟩
    case isFalse hSome =>
      have hRest : Consumes (readChunks fuel (size - min size 5000000)) _ := ih (by omega)
      refine ((Consumes.target (List.replicate (min size 5000000) 0)).bind fun chunk => hRest.map).mono ?_
      rintro data w ⟨chunk, _, _, ⟨rfl, hChunk⟩, ⟨rest, rfl, rfl, hLength⟩, rfl⟩
      rw [List.length_replicate] at hChunk
      refine ⟨rfl, ?_⟩
      rw [List.length_append, hChunk, hLength]
      omega

theorem consumes_bytes : Consumes (readBytes stale) (fun data w => w = writeBytes data ∧ data.length ≤ maxSize) := by
  refine (consumes_compactSize.bind fun nSize => consumes_chunks (Nat.le_refl nSize)).mono ?_
  rintro data w ⟨nSize, _, _, ⟨rfl, hMax⟩, ⟨rfl, rfl⟩, rfl⟩
  exact ⟨rfl, hMax⟩

theorem consumes_vector {α : Type} {item : Reader α} {write : α → Bytes} {good : α → Prop}
    (hItem : Consumes item (fun a w => w = write a ∧ good a)) :
    Consumes (readVector stale item)
      (fun items w => w = writeVector write items ∧ items.length ≤ maxSize ∧ ∀ a ∈ items, good a) := by
  refine (consumes_compactSize.bind fun nSize => Consumes.many hItem nSize).mono ?_
  rintro items w ⟨nSize, _, _, ⟨rfl, hMax⟩, ⟨rfl, rfl, hGood⟩, rfl⟩
  exact ⟨rfl, hMax, hGood⟩

end Consumes

end BitcoinGpuMiner
