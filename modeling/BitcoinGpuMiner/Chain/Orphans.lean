import BitcoinGpuMiner.Chain.PlainBlock
import BitcoinGpuMiner.Foundation.Multimap

/-! # The orphan pool

A multimap keyed by the hash of the missing parent. The search for a block that is already in
it starts at the entries keyed by the block's own hash, so it finds the block only when one of
its children happens to be in the pool as well.
-/

namespace BitcoinGpuMiner

open Foundation

set_option autoImplicit false

namespace Node

/-- The key of an entry in the order of the multimap. -/
def orphanKey (entry : Uint256 × Block) : Nat := entry.1.val

theorem insertOrphan_eq (orphanBlocks : List (Uint256 × Block)) (block : Block) :
    insertOrphan orphanBlocks block = insertBehind orphanKey (block.hashPrevBlock, block) orphanBlocks := rfl

theorem orphanKey_eq_iff (entry : Uint256 × Block) (hash : Uint256) : orphanKey entry = hash.val ↔ entry.1 = hash :=
  (Uint256.ext_iff ..).symm

theorem waiting_iff (node : Node) (hash : Uint256) :
    node.waiting hash = true ↔ ∃ entry ∈ node.orphanBlocks, entry.1 = hash := by
  simp only [waiting, List.any_eq_true, beq_iff_eq]

/-- The pool is sorted, and each block in it stands under its parent's hash. -/
structure OrphansKept (node : Node) : Prop where
  sorted : node.orphanBlocks.Pairwise fun entry later => orphanKey entry ≤ orphanKey later
  keyed : ∀ entry ∈ node.orphanBlocks, entry.1 = entry.2.hashPrevBlock

theorem AcceptCase.orphanBlocks_cases {verifyScript : VerifyScript} {node : Node} {block : Block} {outcome : Outcome}
    (hCase : AcceptCase verifyScript node block outcome) :
    outcome.node.orphanBlocks = node.orphanBlocks ∨
      outcome.node.orphanBlocks = insertOrphan node.orphanBlocks block := by
  cases hCase with
  | orphan =>
    rw [acceptOrphan]
    split
    · exact .inl rfl
    · exact .inr rfl
  | _ => exact .inl rfl

theorem AcceptCase.orphansKept {verifyScript : VerifyScript} {node : Node} {block : Block} {outcome : Outcome}
    (hCase : AcceptCase verifyScript node block outcome) (hKept : node.OrphansKept) : outcome.node.OrphansKept := by
  rcases hCase.orphanBlocks_cases with hSame | hAdded
  · exact ⟨hSame ▸ hKept.sorted, hSame ▸ hKept.keyed⟩
  · rw [insertOrphan_eq] at hAdded
    constructor
    · rw [hAdded]
      exact pairwise_insertBehind hKept.sorted _
    · intro entry hMem
      rw [hAdded, mem_insertBehind] at hMem
      rcases hMem with rfl | hMem
      · rfl
      · exact hKept.keyed entry hMem

theorem initial_orphanBlocks : initial.orphanBlocks = [] := by
  rw [initial_eq]

theorem initial_orphansKept : initial.OrphansKept := by
  constructor
  · rw [initial_orphanBlocks]
    exact List.Pairwise.nil
  · rw [initial_orphanBlocks]
    exact fun _ hMem => absurd hMem List.not_mem_nil

theorem Run.orphansKept {verifyScript : VerifyScript} {allowed : Node → Block → Prop} {node : Node}
    (hRun : Run verifyScript allowed node) : node.OrphansKept := by
  refine (hRun.invariant (motive := OrphansKept) initial_orphansKept ?_).2
  intro node block node' result hTree hKept _ hAccept
  have hKept' := (hTree.acceptBlock_cases verifyScript block).orphansKept hKept
  rw [hAccept] at hKept'
  exact hKept'

/-- What the search for a duplicate has to meet: an entry under the hash, and the block itself
there or further on. -/
def Recognised (node : Node) (hash : Uint256) : Prop :=
  node.waiting hash = true ∧ ∃ entry ∈ node.orphanBlocks, ¬ entry.1 < hash ∧ entry.2.getHash = hash

section Search

variable {node : Node}

theorem OrphansKept.search_iff (hKept : node.OrphansKept) (hash : Uint256) :
    ((node.orphanBlocks.dropWhile fun entry => entry.1 != hash).any fun entry => entry.2.getHash == hash) = true ↔
      node.Recognised hash := by
  have hTail : (node.orphanBlocks.dropWhile fun entry => entry.1 != hash) =
      iterateFrom orphanKey hash.val node.orphanBlocks := by
    rw [iterateFrom]
    congr 1
    funext entry
    rw [Bool.eq_iff_iff, bne_iff_ne, decide_eq_true_iff, Ne, Ne, orphanKey_eq_iff]
  rw [hTail, List.any_eq_true, Recognised, waiting_iff]
  constructor
  · rintro ⟨entry, hMem, hHash⟩
    obtain ⟨⟨first, hFirst, hKey⟩, hIn, hLe⟩ := (mem_iterateFrom_iff hKept.sorted _ _).mp hMem
    exact ⟨⟨first, hFirst, (orphanKey_eq_iff ..).mp hKey⟩, entry, hIn, Nat.not_lt.mpr hLe, beq_iff_eq.mp hHash⟩
  · rintro ⟨⟨first, hFirst, hKey⟩, entry, hIn, hLe, hHash⟩
    refine ⟨entry, ?_, beq_iff_eq.mpr hHash⟩
    exact (mem_iterateFrom_iff hKept.sorted _ _).mpr
      ⟨⟨first, hFirst, (orphanKey_eq_iff ..).mpr hKey⟩, hIn, Nat.not_lt.mp hLe⟩

variable {block : Block}

theorem OrphansKept.acceptOrphan_of_recognised (hKept : node.OrphansKept) (hSeen : node.Recognised block.getHash) :
    acceptOrphan node block = ⟨node, .ok false⟩ := by
  rw [acceptOrphan, if_pos]
  exact (hKept.search_iff _).mpr hSeen

theorem OrphansKept.acceptOrphan_of_not (hKept : node.OrphansKept) (hMissed : ¬ node.Recognised block.getHash) :
    acceptOrphan node block =
      ⟨{ node with orphanBlocks := insertOrphan node.orphanBlocks block }, .ok true⟩ := by
  rw [acceptOrphan, if_neg]
  intro hFound
  exact hMissed ((hKept.search_iff _).mp hFound)

theorem recognised_insertOrphan_iff (hMissed : ¬ node.Recognised block.getHash) :
    ({ node with orphanBlocks := insertOrphan node.orphanBlocks block } : Node).Recognised block.getHash ↔
      (node.waiting block.getHash = true ∨ block.hashPrevBlock = block.getHash) ∧
        ¬ block.hashPrevBlock < block.getHash := by
  rw [Recognised, waiting_iff, waiting_iff]
  simp only [insertOrphan_eq, mem_insertBehind]
  constructor
  · rintro ⟨⟨first, hFirst, hKey⟩, entry, hMem, hLe, hHash⟩
    rcases hMem with rfl | hMem
    · refine ⟨?_, hLe⟩
      rcases hFirst with rfl | hFirst
      · exact .inr hKey
      · exact .inl ⟨first, hFirst, hKey⟩
    · rcases hFirst with rfl | hFirst
      · refine ⟨.inr hKey, ?_⟩
        rw [show block.hashPrevBlock = block.getHash from hKey, Uint256.lt_iff]
        exact Nat.lt_irrefl _
      · exact absurd ⟨(waiting_iff ..).mpr ⟨first, hFirst, hKey⟩, entry, hMem, hLe, hHash⟩ hMissed
  · rintro ⟨hFirst, hLe⟩
    refine ⟨?_, (block.hashPrevBlock, block), .inl rfl, hLe, rfl⟩
    rcases hFirst with ⟨first, hFirst, hKey⟩ | hSelf
    · exact ⟨first, .inr hFirst, hKey⟩
    · exact ⟨(block.hashPrevBlock, block), .inl rfl, hSelf⟩

end Search

end Node

end BitcoinGpuMiner
