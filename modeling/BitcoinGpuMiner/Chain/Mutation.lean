import BitcoinGpuMiner.Chain.Contents
import BitcoinGpuMiner.Chain.MerkleRoot

/-! # The flag for repeated transactions

`ComputeMerkleRoot` compares neighbours only under `if (mutated)`, and the flag starts as false: the comparison is
never made. Since an odd level is padded with a copy of its last hash, a list and its padded form have the same
root, and nothing else tells the two apart.
-/

namespace BitcoinGpuMiner

open Foundation

set_option autoImplicit false

/-- Some level of the tree over the hashes, before it is padded, has equal hashes at positions `2k` and `2k + 1`. -/
def Repeats (txHashes : List Uint256) : Prop := ∃ level, PairTree.Level hashPair txHashes level ∧ PairTree.Twins level

/-- The comparison that the guard skips. -/
theorem equalNeighbours_iff (txHashes : List Uint256) : equalNeighbours txHashes = true ↔ PairTree.Twins txHashes := by
  induction txHashes using equalNeighbours.induct with
  | case1 a b rest ih => rw [equalNeighbours, Bool.or_eq_true, beq_iff_eq, ih, PairTree.twins_cons_cons_iff]
  | case2 txHashes hShort =>
    cases txHashes with
    | nil => exact iff_of_false Bool.false_ne_true (PairTree.not_twins_of_short (Nat.zero_le 1))
    | cons a rest =>
      cases rest with
      | nil => exact iff_of_false Bool.false_ne_true (PairTree.not_twins_of_short (Nat.le_refl 1))
      | cons b rest => exact absurd rfl (hShort a b rest)

section Levels

variable {fuel : Nat} {txHashes : List Uint256}

theorem repeats_iff_of_long (hLong : 1 < txHashes.length) :
    Repeats txHashes ↔ PairTree.Twins txHashes ∨ Repeats (PairTree.next hashPair txHashes) := by
  constructor
  · rintro ⟨level, hLevel, hTwins⟩
    cases hLevel with
    | refl => exact .inl hTwins
    | up _ hRest => exact .inr ⟨level, hRest, hTwins⟩
  · intro hRepeats
    cases hRepeats with
    | inl hTwins => exact ⟨txHashes, .refl _, hTwins⟩
    | inr hNext =>
      obtain ⟨level, hRest, hTwins⟩ := hNext
      exact ⟨level, .up hLong hRest, hTwins⟩

theorem not_repeats_of_short (hShort : txHashes.length ≤ 1) : ¬ Repeats txHashes := by
  rintro ⟨level, hLevel, hTwins⟩
  cases hLevel with
  | refl => exact PairTree.not_twins_of_short hShort hTwins
  | up hLong _ => exact absurd hLong (Nat.not_lt.mpr hShort)

def repeatsLoop : Nat → List Uint256 → Bool
  | 0, _ => false
  | fuel + 1, txHashes =>
    if txHashes.length > 1 then equalNeighbours txHashes || repeatsLoop fuel (hashPairs (padLevel txHashes)) else false

theorem repeatsLoop_iff (hFuel : txHashes.length < fuel) : repeatsLoop fuel txHashes = true ↔ Repeats txHashes := by
  induction fuel generalizing txHashes with
  | zero => exact absurd hFuel (Nat.not_lt_zero _)
  | succ fuel ih =>
    have hNext := PairTree.length_next hashPair txHashes
    rw [repeatsLoop]
    split
    case isTrue hLong =>
      rw [hashPairs_padLevel, Bool.or_eq_true, equalNeighbours_iff, ih (by omega), repeats_iff_of_long hLong]
    case isFalse hShort => exact iff_of_false Bool.false_ne_true (not_repeats_of_short (Nat.not_lt.mp hShort))

instance : DecidablePred Repeats := fun txHashes => decidable_of_iff _ (repeatsLoop_iff (Nat.lt_succ_self txHashes.length))

end Levels

section Loop

variable {fuel : Nat} {txHashes : List Uint256}

theorem merkleLoop_of_long (hLong : 1 < txHashes.length) :
    merkleLoop (fuel + 1) txHashes false = merkleLoop fuel (PairTree.next hashPair txHashes) false := by
  rw [merkleLoop, if_pos hLong, hashPairs_padLevel]
  rfl

theorem merkleLoop_succ (hFuel : txHashes.length < fuel) :
    merkleLoop (fuel + 1) txHashes false = merkleLoop fuel txHashes false := by
  induction fuel generalizing txHashes with
  | zero => exact absurd hFuel (Nat.not_lt_zero _)
  | succ fuel ih =>
    have hNext := PairTree.length_next hashPair txHashes
    by_cases hLong : 1 < txHashes.length
    · rw [merkleLoop_of_long hLong, merkleLoop_of_long hLong]
      exact ih (by omega)
    · rw [merkleLoop, if_neg hLong, merkleLoop, if_neg hLong]

/-- The root does not see whether the first level was padded before. -/
theorem computeMerkleRoot_padLevel (hLong : 1 < txHashes.length) (hOdd : txHashes.length % 2 = 1) :
    computeMerkleRoot (padLevel txHashes) = computeMerkleRoot txHashes := by
  obtain ⟨last, -, hPad⟩ := PairTree.pad_odd hOdd
  have hLength : (padLevel txHashes).length = txHashes.length + 1 := by
    rw [show padLevel txHashes = txHashes ++ [last] from hPad, List.length_append, List.length_singleton]
  have hNext : PairTree.next hashPair (padLevel txHashes) = PairTree.next hashPair txHashes :=
    congrArg (fun level => (PairTree.pairs level).map hashPair) (PairTree.pad_pad txHashes)
  have hShorter := PairTree.length_next hashPair txHashes
  rw [computeMerkleRoot, computeMerkleRoot, hLength, merkleLoop_of_long (hLength ▸ Nat.lt_succ_of_lt hLong),
    merkleLoop_of_long hLong, hNext]
  exact merkleLoop_succ (by omega)

theorem repeats_padLevel (hOdd : txHashes.length % 2 = 1) : Repeats (padLevel txHashes) :=
  ⟨padLevel txHashes, .refl _, PairTree.twins_pad hOdd⟩

end Loop

/-- The flag is right exactly when there is nothing to report. -/
theorem mutated_iff_repeats_iff (txHashes : List Uint256) :
    ((computeMerkleRoot txHashes).mutated = true ↔ Repeats txHashes) ↔ ¬ Repeats txHashes := by
  have hFalse : (computeMerkleRoot txHashes).mutated = false := merkleLoop_mutated _ _
  rw [hFalse]
  simp

/-- The last of three hashes is repeated: the flag stays false and the root is that of the three. -/
theorem exists_repetition_unflagged : ∃ txHashes repeated : List Uint256,
    txHashes ≠ repeated ∧ Repeats repeated ∧ (computeMerkleRoot repeated).mutated = false ∧
      (computeMerkleRoot repeated).hash = (computeMerkleRoot txHashes).hash := by
  refine ⟨[1, 2, 3].map Uint256.ofNat, padLevel ([1, 2, 3].map Uint256.ofNat), by decide, repeats_padLevel rfl,
    merkleLoop_mutated _ _, ?_⟩
  rw [computeMerkleRoot_padLevel (by decide) rfl]

end BitcoinGpuMiner
