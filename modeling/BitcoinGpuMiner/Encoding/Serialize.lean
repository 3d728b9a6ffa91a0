import BitcoinGpuMiner.Encoding.Uint256

/-! # Length prefixes and vectors on the wire -/

namespace BitcoinGpuMiner

set_option autoImplicit false

/-! Bits of a stream's version that the serializers look at, and the version that stands for the protocol. -/

def serGetHash : Nat := 1 <<< 2

def serializeTransactionNoWitness : Nat := 0x40000000

def protocolVersion : Nat := 70015

def writeCompactSize (nSize : Nat) : Bytes :=
  if nSize < 253 then writeLE 1 nSize
  else if nSize ≤ 0xffff then 253 :: writeLE 2 nSize
  else if nSize ≤ 0xffffffff then 254 :: writeLE 4 nSize
  else 255 :: writeLE 8 nSize

def writeVector {α : Type} (write : α → Bytes) (items : List α) : Bytes :=
  writeCompactSize items.length ++ items.flatMap write

/-- Scripts and witness items: a length and the bytes themselves. -/
def writeBytes (data : Bytes) : Bytes := writeCompactSize data.length ++ data

/-- A two's complement integer of `count` bytes. -/
def writeInt (count : Nat) (n : Int) : Bytes := writeLE count (n % 2 ^ (8 * count)).toNat

@[simp] theorem length_writeInt (count : Nat) (n : Int) : (writeInt count n).length = count :=
  length_writeLE count _

theorem length_writeCompactSize_le (nSize : Nat) : (writeCompactSize nSize).length ≤ 9 := by
  unfold writeCompactSize
  repeat' split
  all_goals simp

theorem length_writeBytes (data : Bytes) :
    (writeBytes data).length = (writeCompactSize data.length).length + data.length :=
  List.length_append

theorem length_writeVector {α : Type} (write : α → Bytes) (items : List α) :
    (writeVector write items).length =
      (writeCompactSize items.length).length + (items.map fun item => (write item).length).sum := by
  rw [writeVector, List.length_append, List.length_flatMap]

theorem length_writeCompactSize_pos (nSize : Nat) : 0 < (writeCompactSize nSize).length := by
  unfold writeCompactSize
  repeat' split
  all_goals simp

theorem length_writeVector_ge_item {α : Type} (write : α → Bytes) {items : List α} {item : α} (hItem : item ∈ items) :
    (write item).length ≤ (writeVector write items).length := by
  obtain ⟨before, after, rfl⟩ := List.append_of_mem hItem
  rw [length_writeVector, List.map_append, List.map_cons, List.sum_append, List.sum_cons]
  omega

theorem length_writeVector_ge_count {α : Type} {write : α → Bytes} {items : List α}
    (hItems : ∀ item ∈ items, 0 < (write item).length) : items.length ≤ (writeVector write items).length := by
  rw [length_writeVector]
  apply Nat.le_add_left_of_le
  induction items with
  | nil => exact Nat.zero_le _
  | cons item rest ih =>
    obtain ⟨hItem, hRest⟩ := List.forall_mem_cons.mp hItems
    have hSum := ih hRest
    rw [List.length_cons, List.map_cons, List.sum_cons]
    omega

theorem length_writeVector_le {α : Type} {write : α → Bytes} {bound : Nat} {items : List α}
    (hItems : ∀ item ∈ items, (write item).length ≤ bound) :
    (writeVector write items).length ≤ 9 + items.length * bound := by
  have hSum : (items.flatMap write).length ≤ items.length * bound := by
    induction items with
    | nil => exact Nat.zero_le _
    | cons item rest ih =>
      obtain ⟨hItem, hRest⟩ := List.forall_mem_cons.mp hItems
      have hSum := ih hRest
      rw [List.flatMap_cons, List.length_append, List.length_cons, Nat.succ_mul]
      omega
  have hSize := length_writeCompactSize_le items.length
  rw [writeVector, List.length_append]
  omega

end BitcoinGpuMiner
