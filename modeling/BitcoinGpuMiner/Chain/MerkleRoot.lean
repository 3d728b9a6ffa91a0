import BitcoinGpuMiner.Foundation.PairTree
import BitcoinGpuMiner.Model.Block

/-! # The merkle root commits to its leaves

No function from 64 to 32 bytes is injective, so what is asked of the hash is asked of the pairs that the two trees
hash: no two of them collide, and none of their hashes is a leaf.
-/

namespace BitcoinGpuMiner

open Foundation

set_option autoImplicit false

def hashPair (p : Uint256 × Uint256) : Uint256 := Sha256.doubleHash256 (p.1.bytes ++ p.2.bytes)

def loopPairs : Nat → List Uint256 → List (Uint256 × Uint256)
  | 0, _ => []
  | fuel + 1, txHashes =>
    if txHashes.length > 1 then PairTree.pairs (padLevel txHashes) ++ loopPairs fuel (hashPairs (padLevel txHashes))
    else []

def merklePairs (txHashes : List Uint256) : List (Uint256 × Uint256) := loopPairs (txHashes.length + 1) txHashes

theorem hashPairs_eq (txHashes : List Uint256) : hashPairs txHashes = (PairTree.pairs txHashes).map hashPair := by
  induction txHashes using hashPairs.induct with
  | case1 a b rest ih => rw [hashPairs, PairTree.pairs, List.map_cons, ih, hashPair]
  | case2 txHashes hShort =>
    cases txHashes with
    | nil => rfl
    | cons a rest =>
      cases rest with
      | nil => rfl
      | cons b rest => exact absurd rfl (hShort a b rest)

theorem hashPairs_padLevel (txHashes : List Uint256) : hashPairs (padLevel txHashes) = PairTree.next hashPair txHashes :=
  hashPairs_eq (padLevel txHashes)

theorem level_merkleLoop {fuel : Nat} {txHashes : List Uint256} (mutated : Bool) (hNe : txHashes ≠ [])
    (hFuel : txHashes.length < fuel) :
    PairTree.Level hashPair txHashes [(merkleLoop fuel txHashes mutated).hash] := by
  induction fuel generalizing txHashes mutated with
  | zero => exact absurd hFuel (Nat.not_lt_zero _)
  | succ fuel ih =>
    have hPos := List.length_pos_iff.mpr hNe
    have hNext := PairTree.length_next hashPair txHashes
    rw [merkleLoop]
    split
    case isTrue hLong =>
      rw [hashPairs_padLevel]
      apply PairTree.Level.up hLong
      apply ih
      · apply List.length_pos_iff.mp
        omega
      · omega
    case isFalse hShort =>
      obtain ⟨txHash, rfl⟩ := List.length_eq_one_iff.mp (by omega : txHashes.length = 1)
      exact .refl [txHash]

theorem mem_loopPairs {fuel : Nat} {txHashes level : List Uint256} (hFuel : txHashes.length < fuel)
    (hLevel : PairTree.Level hashPair txHashes level) (hLong : 1 < level.length) {p : Uint256 × Uint256}
    (hMem : p ∈ PairTree.pairs (PairTree.pad level)) : p ∈ loopPairs fuel txHashes := by
  induction hLevel generalizing fuel with
  | refl txHashes =>
    obtain ⟨less, rfl⟩ := Nat.exists_eq_add_one.mpr (Nat.zero_lt_of_lt hFuel)
    rw [loopPairs, if_pos hLong]
    exact List.mem_append_left _ hMem
  | @up txHashes level hOver _ ih =>
    obtain ⟨less, rfl⟩ := Nat.exists_eq_add_one.mpr (Nat.zero_lt_of_lt hFuel)
    have hNext := PairTree.length_next hashPair txHashes
    rw [loopPairs, if_pos hOver, hashPairs_padLevel]
    exact List.mem_append_right _ (ih (by omega) hLong hMem)

/-- Two lists of different transaction hashes with the same merkle root are equal, unless the hash of one of their
trees' pairs collides with another one or with a leaf. -/
theorem eq_of_computeMerkleRoot_eq {first second : List Uint256} (hFirst : first ≠ []) (hSecond : second ≠ [])
    (hNodupFirst : first.Nodup) (hNodupSecond : second.Nodup)
    (hInjective : ∀ p ∈ merklePairs first ++ merklePairs second, ∀ q ∈ merklePairs first ++ merklePairs second,
      hashPair p = hashPair q → p = q)
    (hLeaves : ∀ txHash ∈ first ++ second, ∀ p ∈ merklePairs first ++ merklePairs second, hashPair p ≠ txHash)
    (hRoot : (computeMerkleRoot first).hash = (computeMerkleRoot second).hash) : first = second := by
  have hSoundFirst : PairTree.Sound hashPair {p | p ∈ merklePairs first ++ merklePairs second} first :=
    ⟨hNodupFirst, fun level hLevel hLong p hP =>
      List.mem_append_left _ (mem_loopPairs (Nat.lt_succ_self _) hLevel hLong hP)⟩
  have hSoundSecond : PairTree.Sound hashPair {p | p ∈ merklePairs first ++ merklePairs second} second :=
    ⟨hNodupSecond, fun level hLevel hLong p hP =>
      List.mem_append_right _ (mem_loopPairs (Nat.lt_succ_self _) hLevel hLong hP)⟩
  have hTopFirst := level_merkleLoop false hFirst (Nat.lt_succ_self _)
  have hTopSecond := level_merkleLoop false hSecond (Nat.lt_succ_self _)
  rw [computeMerkleRoot, computeMerkleRoot] at hRoot
  rw [hRoot] at hTopFirst
  refine PairTree.eq_of_root ?_ hTopFirst hTopSecond hSoundFirst hSoundSecond hFirst hSecond ?_ ?_
  · intro p hP q hQ hEq
    exact hInjective p hP q hQ hEq
  · intro txHash hMem
    exact hLeaves txHash (List.mem_append_left _ hMem)
  · intro txHash hMem
    exact hLeaves txHash (List.mem_append_right _ hMem)

theorem eq_of_computeMerkleRoot_eq_three :
    (computeMerkleRoot [Uint256.ofNat 1, Uint256.ofNat 2, Uint256.ofNat 3]).hash =
      (computeMerkleRoot ([1, 2, 3].map Uint256.ofNat)).hash ∧
    [Uint256.ofNat 1, Uint256.ofNat 2, Uint256.ofNat 3] = [1, 2, 3].map Uint256.ofNat := by
  refine ⟨rfl, eq_of_computeMerkleRoot_eq (by decide) (by decide) (by decide) (by decide) ?_ ?_ rfl⟩
  · decide +kernel
  · decide +kernel

end BitcoinGpuMiner
