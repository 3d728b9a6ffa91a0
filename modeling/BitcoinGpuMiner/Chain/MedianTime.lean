import BitcoinGpuMiner.Chain.PlainBlock
import BitcoinGpuMiner.Foundation.Position

/-! # The median time past

Every round of the loop writes the first slot of the array, so ten of its eleven slots keep what the memory held
before (`stale`), and the first one ends with the time of the oldest block that was visited.
-/

namespace BitcoinGpuMiner

open Foundation

set_option autoImplicit false

def BlockHeader.getBlockTime (header : BlockHeader) : Int := header.nTime.toNat

def medianTimeSpan : Nat := 11

/-- The loop of `GetMedianTimePast`, with the block `it` and the array; `getBlock` is the block database. -/
def medianLoop (getBlock : Uint256 → Option Block) : Nat → Block → List Int → List Int
  | 0, _, pmedian => pmedian
  | rounds + 1, it, pmedian =>
    let pmedian := pmedian.set 0 it.getBlockTime
    match getBlock it.hashPrevBlock with
    | none => pmedian
    | some prev => medianLoop getBlock rounds prev pmedian

/-- `BlockIndex::GetMedianTimePast`, for the block of the entry. -/
def getMedianTimePast (getBlock : Uint256 → Option Block) (block : Block) (stale : Nat → Int) : Int :=
  sortedAt (medianLoop getBlock 11 block ((List.range medianTimeSpan).map stale)) (medianTimeSpan / 2) 0

/-- The chain that ends with a block, newest first without the block itself. -/
inductive Linked (getBlock : Uint256 → Option Block) : Block → List Block → Prop where
  | first {block : Block} (hNone : getBlock block.hashPrevBlock = none) : Linked getBlock block []
  | next {block prev : Block} {older : List Block} (hSome : getBlock block.hashPrevBlock = some prev)
      (hLinked : Linked getBlock prev older) : Linked getBlock block (prev :: older)

def lastTimes (block : Block) (older : List Block) : List Int :=
  ((block :: older).take medianTimeSpan).map fun block => block.getBlockTime

/-- What the median time is meant to be. -/
def medianTime (block : Block) (older : List Block) : Int :=
  sortedAt (lastTimes block older) ((lastTimes block older).length / 2) 0

/-- What is in the array when it is sorted. -/
def medianSlots (block : Block) (older : List Block) (stale : Nat → Int) : List Int :=
  (lastTimes block older).getLastD 0 :: (List.range 10).map fun slot => stale (slot + 1)

section Loop

variable {getBlock : Uint256 → Option Block}

theorem medianLoop_linked {block : Block} {older : List Block} (hLinked : Linked getBlock block older) (rounds : Nat)
    (pmedian : List Int) : medianLoop getBlock (rounds + 1) block pmedian =
      pmedian.set 0 ((((block :: older).take (rounds + 1)).map fun block => block.getBlockTime).getLastD 0) := by
  induction hLinked generalizing rounds pmedian with
  | first hNone =>
    rw [medianLoop, hNone]
    simp
  | next hSome hLinked ih =>
    rw [medianLoop, hSome]
    dsimp only
    cases rounds with
    | zero => simp [medianLoop]
    | succ rounds =>
      rw [ih rounds, List.set_set]
      simp

theorem getMedianTimePast_eq {block : Block} {older : List Block} (hLinked : Linked getBlock block older)
    (stale : Nat → Int) : getMedianTimePast getBlock block stale = sortedAt (medianSlots block older stale) 5 0 := by
  rw [getMedianTimePast, medianLoop_linked hLinked 10]
  rfl

theorem getMedianTimePast_eq_iff {block : Block} {older : List Block} (hLinked : Linked getBlock block older)
    (stale : Nat → Int) (m : Int) : getMedianTimePast getBlock block stale = m ↔
      (medianSlots block older stale).countP (· < m) ≤ 5 ∧ 5 < (medianSlots block older stale).countP (· ≤ m) := by
  have hLength : 5 < (medianSlots block older stale).length := by simp [medianSlots]
  rw [getMedianTimePast_eq hLinked, sortedAt_eq_iff hLength]

/-- Ten equal slots outvote the one that is written. -/
theorem getMedianTimePast_const {block : Block} {older : List Block} (hLinked : Linked getBlock block older)
    (value : Int) : getMedianTimePast getBlock block (fun _ => value) = value := by
  have hSlots : medianSlots block older (fun _ => value) =
      (lastTimes block older).getLastD 0 :: List.replicate 10 value := rfl
  rw [getMedianTimePast_eq_iff hLinked, hSlots, List.countP_cons, List.countP_cons, List.countP_replicate,
    List.countP_replicate]
  constructor
  · simp only [lt_irrefl, decide_false, Bool.false_eq_true, if_false, Nat.zero_add]
    split <;> decide
  · simp only [le_refl, decide_true, if_true]
    omega

end Loop

/-- Every entry of the block index ends a chain of the block database. -/
theorem Node.Tree.exists_linked {node : Node} (hTree : node.Tree) (hNull : node.blocks[Uint256.null]? = none)
    {h : Uint256} {index : BlockIndex} (hEntry : node.entry h = some index) :
    ∃ block older, node.blocks[h]? = some block ∧ Linked (fun hash => node.blocks[hash]?) block older ∧
      (older.length : Int) = index.height := by
  refine hTree.entry_induction ?_ ?_ hEntry
  · exact ⟨getGenesisBlock, [], hTree.genesisStored, .first hNull, rfl⟩
  · rintro h index prev hEntry - - hHeight ih
    obtain ⟨parent, older, hParent, hLinked, hLength⟩ := ih
    obtain ⟨block, hBlock, -, hLink, -⟩ := hTree.stored h index hEntry
    rw [← hLink] at hParent
    refine ⟨block, parent :: older, hBlock, .next hParent hLinked, ?_⟩
    rw [List.length_cons, hHeight, ← hLength]
    rfl

/-- The result is the median of the last times, whatever the memory of the array held. -/
def MedianDetermined (getBlock : Uint256 → Option Block) (block : Block) (older : List Block) : Prop :=
  ∀ stale : Nat → Int, (∀ slot, -2 ^ 63 ≤ stale slot ∧ stale slot < 2 ^ 63) →
    getMedianTimePast getBlock block stale = medianTime block older

/-- It is so for no chain, and a memory for which the result is the median by chance is one that has few smaller slots
and many that are at most as large. -/
theorem median_never_determined {getBlock : Uint256 → Option Block} {block : Block} {older : List Block}
    (hLinked : Linked getBlock block older) :
    ¬ MedianDetermined getBlock block older ∧
    ∀ stale, getMedianTimePast getBlock block stale = medianTime block older ↔
      (medianSlots block older stale).countP (· < medianTime block older) ≤ 5 ∧
      5 < (medianSlots block older stale).countP (· ≤ medianTime block older) := by
  refine ⟨?_, fun stale => getMedianTimePast_eq_iff hLinked stale _⟩
  intro hDetermined
  have hZero := hDetermined (fun _ => 0) (fun _ => by decide)
  have hOne := hDetermined (fun _ => 1) (fun _ => by decide)
  rw [getMedianTimePast_const hLinked] at hZero hOne
  rw [← hZero] at hOne
  exact absurd hOne (by decide)

/-- A node with two blocks on the genesis block; the array held the time of the genesis block everywhere. -/
theorem median_never_determined_secondRival : ∃ node, Node.Reachable anyScript node ∧
    medianTime Node.secondRival [rivalBlock 2, getGenesisBlock] = 1296688603 ∧
    ¬ MedianDetermined (fun hash => node.blocks[hash]?) Node.secondRival [rivalBlock 2, getGenesisBlock] ∧
    getMedianTimePast (fun hash => node.blocks[hash]?) Node.secondRival (fun _ => 1296688602) ≠
      medianTime Node.secondRival [rivalBlock 2, getGenesisBlock] := by
  have hEvaluated : Node.returnsAll anyScript Node.initial [rivalBlock 2, Node.secondRival] = true ∧
      (Node.acceptAll anyScript Node.initial [rivalBlock 2, Node.secondRival]).blocks[Node.secondRival.hashPrevBlock]? =
        some (rivalBlock 2) ∧
      (Node.acceptAll anyScript Node.initial [rivalBlock 2, Node.secondRival]).blocks[(rivalBlock 2).hashPrevBlock]? =
        some getGenesisBlock ∧
      (Node.acceptAll anyScript Node.initial [rivalBlock 2, Node.secondRival]).blocks[getGenesisBlock.hashPrevBlock]? =
        none := by
    decide +kernel
  obtain ⟨hReturns, hSecond, hFirst, hGenesis⟩ := hEvaluated
  obtain ⟨hNever, hChance⟩ := median_never_determined (.next hSecond (.next hFirst (.first hGenesis)))
  refine ⟨_, Node.Reachable.acceptAll _ .refl hReturns, by decide +kernel, hNever, ?_⟩
  rw [ne_eq, hChance]
  decide +kernel

/-- A new node: the median of the time of the genesis block, and what the array gives if it held zeros. -/
theorem exists_median_stale : medianTime getGenesisBlock [] = 1296688602 ∧
    getMedianTimePast (fun hash => Node.initial.blocks[hash]?) getGenesisBlock (fun _ => 0) = 0 := by
  have hLinked : Linked (fun hash => Node.initial.blocks[hash]?) getGenesisBlock [] := .first (by decide +kernel)
  exact ⟨by decide +kernel, getMedianTimePast_const hLinked 0⟩

end BitcoinGpuMiner
