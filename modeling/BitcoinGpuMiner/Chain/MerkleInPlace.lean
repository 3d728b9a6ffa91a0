import BitcoinGpuMiner.Chain.MerkleRoot
import BitcoinGpuMiner.Encoding.ByteOrder
import BitcoinGpuMiner.Encoding.Streaming

/-! # `ComputeMerkleRoot` in the memory of its vector

The hashes of a level are read from the memory to which those of the next level are written, and one hasher serves
all pairs. What is written ends before what has not been read yet, and every pair finds the hasher as after
`Reset`, so the levels are those of the tree.
-/

namespace BitcoinGpuMiner

open Foundation

set_option autoImplicit false

namespace Sha256.Stream

/-- The object that `DoubleHash256::Finalize` leaves behind. -/
def finalized (ctx : Stream) : Stream := (ctx.padded.reset.write (digest ctx.padded.s)).padded

/-- Nothing has been written since the last `Reset`. -/
structure Clean (ctx : Stream) : Prop where
  wf : ctx.Wf
  view : ctx.view = Sha256.reset

theorem Clean.reset {ctx : Stream} (hBuf : ctx.buf.length = 64) : ctx.reset.Clean := ⟨Wf.reset hBuf, view_reset ctx⟩

theorem Wf.finalized {ctx : Stream} (hWf : ctx.Wf) : ctx.finalized.Wf :=
  (digest_padded (view_write (Wf.reset (digest_padded hWf).1.buf) _).1).1

theorem Clean.digest_finalized_write {ctx : Stream} (hClean : ctx.Clean) (data : Bytes) :
    digest (ctx.write data).finalized.s = (doubleHash256 data).bytes := by
  obtain ⟨hWf, hView⟩ := view_write hClean.wf data
  rw [doubleHash256_eq, Uint256.bytes_ofBytes (length_finalize _)]
  have hTwice := finalizeTwice_eq hWf
  rw [hView, hClean.view] at hTwice
  exact hTwice

theorem Clean.reset_finalized_write {ctx : Stream} (hClean : ctx.Clean) (data : Bytes) :
    (ctx.write data).finalized.reset.Clean :=
  .reset (view_write hClean.wf data).1.finalized.buf

end Sha256.Stream

namespace MerkleInPlace

/-- `txHashes.size()`, where `txHashes` is the memory of the vector. -/
def size (txHashes : Bytes) : Nat := txHashes.length / 32

def hashAt (txHashes : Bytes) (pos : Nat) : Uint256 := Uint256.ofBytes ((txHashes.drop (32 * pos)).take 32)

/-- The variables of the loop over the pairs of a level; the pointers are offsets into the vector. -/
structure Pass where
  ctx : Sha256.Stream
  txHashes : Bytes
  pIn : Nat
  pOut : Nat

/-- The body of the loop. -/
def Pass.next (pass : Pass) : Pass :=
  let ctx := (pass.ctx.write ((pass.txHashes.drop pass.pIn).take 64)).finalized
  ⟨ctx.reset, memcpy pass.txHashes pass.pOut (Sha256.digest ctx.s), pass.pIn + 64, pass.pOut + 32⟩

def Pass.run : Nat → Pass → Pass
  | 0, pass => pass
  | blocks + 1, pass => run blocks pass.next

/-- `push_back(back())` for an odd number of hashes. -/
def pushBack (txHashes : Bytes) : Bytes :=
  if size txHashes % 2 = 1 then txHashes ++ txHashes.drop (txHashes.length - 32) else txHashes

/-- The loop over the levels; it has no result when there are more than `fuel` tests of its condition. -/
def levels : Nat → Sha256.Stream → Bytes → Bool → Option (Bytes × Bool)
  | 0, _, _, _ => none
  | fuel + 1, ctx, txHashes, mutated =>
    if size txHashes > 1 then
      let mutated := if mutated then
        (List.range (size txHashes / 2)).any (fun k => hashAt txHashes (2 * k) == hashAt txHashes (2 * k + 1)) || mutated
        else mutated
      let txHashes := pushBack txHashes
      let nextLevelHashCount := size txHashes / 2
      let pass := Pass.run nextLevelHashCount ⟨ctx, txHashes, 0, 0⟩
      levels fuel pass.ctx (pass.txHashes.take (32 * nextLevelHashCount)) mutated
    else some (txHashes, mutated)

/-- `ComputeMerkleRoot`; `garbage` is what the array of the hasher holds at first. -/
def computeMerkleRoot (fuel : Nat) (garbage : Bytes) (txHashes : List Uint256) : Option MerkleRootResult :=
  (levels fuel (Sha256.Stream.reset ⟨Sha256.initialState, garbage, 0⟩) (txHashes.flatMap Uint256.bytes) false).map
    fun left => ⟨if size left.1 = 0 then Uint256.null else hashAt left.1 0, left.2⟩

section Level

def pairBytes (p : Uint256 × Uint256) : Bytes := p.1.bytes ++ p.2.bytes

theorem size_flatMap_bytes (txHashes : List Uint256) : size (txHashes.flatMap Uint256.bytes) = txHashes.length := by
  rw [size, Uint256.length_flatMap_bytes, Nat.mul_div_cancel_left _ (by decide)]

/-- In the middle of a level: the hashes of the pairs that are done, memory that has been read and not written, and
the pairs that are still to be read. -/
structure Midway (pass : Pass) (done : List Uint256) (rest : List (Uint256 × Uint256)) : Prop where
  ctx : pass.ctx.Clean
  txHashes : ∃ gap : Bytes, gap.length = 32 * done.length ∧
    pass.txHashes = done.flatMap Uint256.bytes ++ gap ++ rest.flatMap pairBytes
  pIn : pass.pIn = 64 * done.length
  pOut : pass.pOut = 32 * done.length

theorem Midway.next {pass : Pass} {done : List Uint256} {p : Uint256 × Uint256} {rest : List (Uint256 × Uint256)}
    (hMidway : Midway pass done (p :: rest)) : Midway pass.next (done ++ [hashPair p]) rest := by
  obtain ⟨gap, hGap, hBytes⟩ := hMidway.txHashes
  have hDone := Uint256.length_flatMap_bytes done
  have hPair : (pairBytes p).length = 64 := by
    rw [pairBytes, List.length_append, Uint256.length_bytes, Uint256.length_bytes]
  have hRead : (pass.txHashes.drop pass.pIn).take 64 = pairBytes p := by
    rw [hBytes, hMidway.pIn, List.flatMap_cons, List.drop_left', List.take_left' hPair]
    rw [List.length_append, hDone, hGap]
    omega
  have hHash : Sha256.digest (pass.ctx.write (pairBytes p)).finalized.s = (hashPair p).bytes :=
    hMidway.ctx.digest_finalized_write (pairBytes p)
  have hWritten : memcpy pass.txHashes pass.pOut (hashPair p).bytes =
      (done ++ [hashPair p]).flatMap Uint256.bytes ++ (gap ++ pairBytes p).drop 32 ++ rest.flatMap pairBytes := by
    have hSplit : pass.txHashes = done.flatMap Uint256.bytes ++ (gap ++ pairBytes p).take 32 ++
        ((gap ++ pairBytes p).drop 32 ++ rest.flatMap pairBytes) := by
      rw [hBytes, List.flatMap_cons, List.append_assoc _ (List.take _ _), ← List.append_assoc (List.take _ _),
        List.take_append_drop]
      simp only [List.append_assoc]
    rw [hSplit, hMidway.pOut, List.flatMap_append, List.flatMap_singleton, List.append_assoc _ (List.drop _ _)]
    apply memcpy_append _ _ hDone
    -- the 32 bytes that are written end inside what has been read
    rw [Uint256.length_bytes, List.length_take, List.length_append, hPair]
    omega
  refine ⟨?_, ⟨(gap ++ pairBytes p).drop 32, ?_, ?_⟩, ?_, ?_⟩
  · exact hMidway.ctx.reset_finalized_write _
  · rw [List.length_drop, List.length_append, hGap, hPair, List.length_append, List.length_singleton]
    omega
  · rw [Pass.next, hRead, hHash]
    exact hWritten
  · have hIn : pass.next.pIn = pass.pIn + 64 := rfl
    rw [hIn, hMidway.pIn, List.length_append, List.length_singleton]
    omega
  · have hOut : pass.next.pOut = pass.pOut + 32 := rfl
    rw [hOut, hMidway.pOut, List.length_append, List.length_singleton]
    omega

theorem Midway.run {pass : Pass} {done : List Uint256} {rest : List (Uint256 × Uint256)}
    (hMidway : Midway pass done rest) : Midway (Pass.run rest.length pass) (done ++ rest.map hashPair) [] := by
  induction rest generalizing pass done with
  | nil =>
    rw [List.map_nil, List.append_nil]
    exact hMidway
  | cons p rest ih =>
    have hRest := ih hMidway.next
    rw [List.append_assoc] at hRest
    exact hRest

theorem Midway.take {pass : Pass} {done : List Uint256} (hMidway : Midway pass done []) :
    pass.txHashes.take (32 * done.length) = done.flatMap Uint256.bytes := by
  obtain ⟨gap, -, hBytes⟩ := hMidway.txHashes
  rw [hBytes, List.append_assoc, List.take_left' (Uint256.length_flatMap_bytes done)]

theorem pushBack_flatMap_bytes (txHashes : List Uint256) :
    pushBack (txHashes.flatMap Uint256.bytes) = (PairTree.pad txHashes).flatMap Uint256.bytes := by
  rw [pushBack, size_flatMap_bytes]
  split
  case isTrue hOdd =>
    have hNe : txHashes ≠ [] := by
      rintro rfl
      cases hOdd
    obtain ⟨front, last, rfl⟩ := List.eq_nil_or_concat' txHashes |>.resolve_left hNe
    have hBack : ((front ++ [last]).flatMap Uint256.bytes).drop (((front ++ [last]).flatMap Uint256.bytes).length - 32) =
        last.bytes := by
      rw [Uint256.length_flatMap_bytes, List.flatMap_append, List.flatMap_singleton, List.drop_left']
      rw [Uint256.length_flatMap_bytes, List.length_append, List.length_singleton]
      omega
    have hPad : PairTree.pad (front ++ [last]) = front ++ [last] ++ [last] := by
      rw [PairTree.pad, if_pos hOdd, List.getLast?_concat, Option.toList_some]
    have hBytes : (front ++ [last] ++ [last]).flatMap Uint256.bytes =
        (front ++ [last]).flatMap Uint256.bytes ++ last.bytes := by
      rw [List.flatMap_append, List.flatMap_singleton]
    rw [hBack, hPad, hBytes]
  case isFalse hEven =>
    rw [PairTree.pad, if_neg hEven]

theorem flatMap_pairBytes_pairs {txHashes : List Uint256} (hEven : txHashes.length % 2 = 0) :
    (PairTree.pairs txHashes).flatMap pairBytes = txHashes.flatMap Uint256.bytes := by
  conv_rhs => rw [← PairTree.flatMap_pairs hEven, List.flatMap_assoc]
  apply congrArg (List.flatMap · _)
  funext p
  rw [List.flatMap_cons, List.flatMap_singleton, pairBytes]

/-- One level of the memory is one level of the tree. -/
theorem levels_succ (fuel : Nat) {ctx : Sha256.Stream} {txHashes : List Uint256} (hClean : ctx.Clean)
    (hLong : 1 < txHashes.length) : ∃ ctx' : Sha256.Stream, ctx'.Clean ∧
      levels (fuel + 1) ctx (txHashes.flatMap Uint256.bytes) false =
        levels fuel ctx' ((PairTree.next hashPair txHashes).flatMap Uint256.bytes) false := by
  have hCount : (PairTree.pad txHashes).length / 2 = (PairTree.next hashPair txHashes).length := by
    rw [PairTree.next, List.length_map, PairTree.length_pairs]
  have hStart : Midway ⟨ctx, (PairTree.pad txHashes).flatMap Uint256.bytes, 0, 0⟩ []
      (PairTree.pairs (PairTree.pad txHashes)) := by
    refine ⟨hClean, ⟨[], rfl, ?_⟩, rfl, rfl⟩
    rw [flatMap_pairBytes_pairs (PairTree.length_pad txHashes)]
    rfl
  have hEnd := hStart.run
  rw [List.nil_append, ← PairTree.next, PairTree.length_pairs, hCount] at hEnd
  refine ⟨_, hEnd.ctx, ?_⟩
  rw [levels, size_flatMap_bytes, if_pos hLong, pushBack_flatMap_bytes]
  dsimp only
  rw [size_flatMap_bytes, hCount, hEnd.take]
  rfl

theorem levels_eq {fuel : Nat} {ctx : Sha256.Stream} {txHashes : List Uint256} (hClean : ctx.Clean) (hNe : txHashes ≠ [])
    (hFuel : txHashes.length < fuel) :
    levels fuel ctx (txHashes.flatMap Uint256.bytes) false =
      some ((merkleLoop fuel txHashes false).hash.bytes, (merkleLoop fuel txHashes false).mutated) := by
  induction fuel generalizing ctx txHashes with
  | zero => exact absurd hFuel (Nat.not_lt_zero _)
  | succ fuel ih =>
    have hPos := List.length_pos_iff.mpr hNe
    have hNext := PairTree.length_next hashPair txHashes
    by_cases hLong : 1 < txHashes.length
    · obtain ⟨ctx', hClean', hLevels⟩ := levels_succ fuel hClean hLong
      rw [hLevels, merkleLoop, if_pos hLong, hashPairs_padLevel]
      apply ih hClean'
      · apply List.length_pos_iff.mp
        omega
      · omega
    · obtain ⟨txHash, rfl⟩ := List.length_eq_one_iff.mp (by omega : txHashes.length = 1)
      rw [levels, size_flatMap_bytes, if_neg hLong, merkleLoop, if_neg hLong, List.flatMap_singleton]
      rfl

end Level

/-- In place the same is computed as on lists. -/
theorem computeMerkleRoot_eq_merkleLoop {garbage : Bytes} (hGarbage : garbage.length = 64) {txHashes : List Uint256}
    (hNe : txHashes ≠ []) {fuel : Nat} (hFuel : txHashes.length < fuel) :
    computeMerkleRoot fuel garbage txHashes = some (merkleLoop fuel txHashes false) := by
  have hClean : (Sha256.Stream.reset ⟨Sha256.initialState, garbage, 0⟩).Clean := .reset hGarbage
  rw [computeMerkleRoot, levels_eq hClean hNe hFuel, Option.map_some]
  have hSize : size (merkleLoop fuel txHashes false).hash.bytes ≠ 0 := by
    rw [size, Uint256.length_bytes]
    decide
  rw [if_neg hSize, hashAt, Nat.mul_zero, List.drop_zero, List.take_of_length_le (by rw [Uint256.length_bytes]),
    Uint256.ofBytes_bytes]

/-- The loop ends, and what it returns is the root of the tree. -/
theorem computeMerkleRoot_eq_root {garbage : Bytes} (hGarbage : garbage.length = 64) {txHashes : List Uint256}
    (hNe : txHashes ≠ []) {fuel : Nat} (hFuel : txHashes.length < fuel) :
    ∃ result, computeMerkleRoot fuel garbage txHashes = some result ∧
      PairTree.root hashPair txHashes = some result.hash := by
  refine ⟨_, computeMerkleRoot_eq_merkleLoop hGarbage hNe hFuel, ?_⟩
  exact PairTree.root_eq_of_level (level_merkleLoop false hNe hFuel)

theorem computeMerkleRoot_eq_root_three :
    ∃ result, computeMerkleRoot 4 (List.replicate 64 0) [Uint256.ofNat 1, Uint256.ofNat 2, Uint256.ofNat 3] = some result ∧
      PairTree.root hashPair [Uint256.ofNat 1, Uint256.ofNat 2, Uint256.ofNat 3] = some result.hash :=
  computeMerkleRoot_eq_root List.length_replicate (List.cons_ne_nil _ _) (by decide)

end MerkleInPlace

end BitcoinGpuMiner
