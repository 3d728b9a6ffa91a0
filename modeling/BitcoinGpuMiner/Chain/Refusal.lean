import BitcoinGpuMiner.Chain.PlainBlock

/-! # What a refused block leaves behind

A call that returns `false` leaves the stores alone, and a call that stores its block returns
`true`, except in two situations: a reorganisation at height one saves the block before it checks the
transactions, and an orphan that waits for the block makes the call lock its own mutex again.
-/

namespace BitcoinGpuMiner

open Foundation

set_option autoImplicit false

namespace Node

structure SameStores (node node' : Node) : Prop where
  blocks : node'.blocks = node.blocks
  blockIndex : node'.blockIndex = node.blockIndex
  tips : node'.tips = node.tips
  ledger : node'.ledger = node.ledger
  orphanBlocks : node'.orphanBlocks = node.orphanBlocks

structure CleanRefusal (node : Node) (block : Block) (outcome : Outcome) : Prop where
  unchanged : outcome.result = .ok false → SameStores node outcome.node
  stored : node.entry block.getHash = none → outcome.node.entry block.getHash ≠ none → outcome.result = .ok true

/-- A valid block on the active tip or on its rival at height one that is stored in vain. -/
def Strands (verifyScript : VerifyScript) (node : Node) (block : Block) (prev active : BlockIndex) : Prop :=
  node.checkBlock block = .ok true ∧ block.hashPrevBlock ≠ Uint256.null ∧
    ((block.hashPrevBlock = active.hash ∧ VtxValid verifyScript node.ledger (prev.height + 1) block.vtx ∧
        node.waiting block.getHash = true) ∨
      (node.Rival block prev active ∧ active.height = 1 ∧
        ((∀ result, overlayCheck verifyScript node block ≠ .ok (some result)) ∨ node.waiting block.getHash = true)))

section Place

variable {verifyScript : VerifyScript} {node : Node} {block : Block} {prev active : BlockIndex}

theorem strands_onTop_iff (hTree : node.Tree) (hTop : block.hashPrevBlock = active.hash) :
    Strands verifyScript node block prev active ↔ blockOk block = true ∧ block.hashPrevBlock ≠ Uint256.null ∧
      VtxValid verifyScript node.ledger (prev.height + 1) block.vtx ∧ node.waiting block.getHash = true := by
  have hNotRival : ¬ node.Rival block prev active := fun hRival => hRival.other hTop
  rw [Strands, hTree.checkBlock_eq, Except.ok.injEq]
  simp only [hTop, hNotRival, true_and, false_and, or_false]

theorem strands_rival_iff (hTree : node.Tree) (hRival : node.Rival block prev active) :
    Strands verifyScript node block prev active ↔ blockOk block = true ∧ block.hashPrevBlock ≠ Uint256.null ∧
      active.height = 1 ∧
        ((∀ result, overlayCheck verifyScript node block ≠ .ok (some result)) ∨ node.waiting block.getHash = true) := by
  rw [Strands, hTree.checkBlock_eq, Except.ok.injEq]
  simp only [hRival.other, hRival, true_and, false_and, false_or]

end Place

section Refusal

variable {node : Node} {block : Block} {result : Except Fault Bool}

theorem cleanRefusal_same : CleanRefusal node block ⟨node, result⟩ where
  unchanged _ := ⟨rfl, rfl, rfl, rfl, rfl⟩
  stored hNew hStored := absurd hNew hStored

theorem cleanRefusal_stored_iff {node' : Node} (hNew : node.entry block.getHash = none)
    (hStored : node'.entry block.getHash ≠ none) : CleanRefusal node block ⟨node', result⟩ ↔ result = .ok true := by
  constructor
  · intro hClean
    exact hClean.stored hNew hStored
  · rintro rfl
    exact ⟨fun hFalse => (nomatch hFalse), fun _ _ => rfl⟩

theorem cleanRefusal_orphan (hNew : node.entry block.getHash = none) :
    CleanRefusal node block (acceptOrphan node block) := by
  rw [acceptOrphan]
  split
  · exact cleanRefusal_same
  · refine ⟨fun hFalse => ?_, fun _ hStored => absurd hNew hStored⟩
    cases hFalse

end Refusal

/-- The property for one call: it fails exactly where the block is stored in vain. -/
theorem cleanRefusal_iff {verifyScript : VerifyScript} {node : Node} (hReach : Reachable verifyScript node)
    (block : Block) : CleanRefusal node block (acceptBlock verifyScript node block) ↔
      ∀ prev active, node.Candidate block prev active → ¬ Strands verifyScript node block prev active := by
  have hTree : node.Tree := hReach.tree
  have hCase := hTree.acceptBlock_cases verifyScript block
  generalize acceptBlock verifyScript node block = outcome at hCase
  cases hCase with
  | known hKnown =>
    exact iff_of_true cleanRefusal_same (forall_candidate_of_known hKnown)
  | orphan hNew hParent =>
    exact iff_of_true (cleanRefusal_orphan hNew) (Tree.forall_candidate_of_orphan hParent)
  | extended memPool hCandidate hTop hOk hValid hNull =>
    rw [hTree.prev_hash hCandidate] at hNull
    rw [forall_candidate_iff hCandidate, strands_onTop_iff hTree hTop]
    refine (cleanRefusal_stored_iff hCandidate.new ?_).trans ?_
    · exact hTree.entry_withBlock_self hCandidate true
    · rw [endResult_eq_true_iff]
      simp only [hOk, hNull, hValid, ne_eq, not_false_eq_true, true_and]
  | notExtended hCandidate hTop hNot =>
    rw [forall_candidate_iff hCandidate, strands_onTop_iff hTree hTop, ← hTree.prev_hash hCandidate]
    refine iff_of_true cleanRefusal_same ?_
    rintro ⟨hOk, hNull, hValid, -⟩
    exact hNot ⟨hOk, hValid, hNull⟩
  | branched hCandidate hBeside hOk hNull =>
    rw [forall_candidate_iff hCandidate]
    refine iff_of_true ((cleanRefusal_stored_iff hCandidate.new (hTree.entry_withBlock_self hCandidate true)).mpr rfl) ?_
    rintro ⟨-, -, ⟨hTop, -⟩ | ⟨hRival, -⟩⟩
    · exact hBeside.other hTop
    · exact hBeside.not_rival hRival
  | notBranched hCandidate hBeside hNot =>
    rw [forall_candidate_iff hCandidate]
    refine iff_of_true cleanRefusal_same ?_
    rintro ⟨-, -, ⟨hTop, -⟩ | ⟨hRival, -⟩⟩
    · exact hBeside.other hTop
    · exact hBeside.not_rival hRival
  | crashed hCandidate hRival hBad =>
    rw [forall_candidate_iff hCandidate, strands_rival_iff hTree hRival]
    refine iff_of_true cleanRefusal_same ?_
    rintro ⟨-, hNull, hHeight, -⟩
    rcases hBad with hBad | ⟨hHigh, -⟩
    · exact hNull hBad
    · omega
  | notOvertaken hCandidate hRival hNull hNot =>
    rw [forall_candidate_iff hCandidate, strands_rival_iff hTree hRival]
    refine iff_of_true cleanRefusal_same ?_
    rintro ⟨hOk, -⟩
    cases hNot.symm.trans hOk
  | savedOnly hCandidate hRival hNull hHeight hOk hCheck =>
    rw [forall_candidate_iff hCandidate, strands_rival_iff hTree hRival]
    refine (cleanRefusal_stored_iff hCandidate.new (hTree.entry_withBlock_self hCandidate false)).trans (iff_of_false ?_ ?_)
    · rcases hCheck with ⟨fault, -, rfl⟩ | ⟨-, rfl⟩ <;> intro hTrue <;> cases hTrue
    · refine not_not_intro ⟨hOk, hNull, hHeight, .inl ?_⟩
      intro result hSome
      rcases hCheck with ⟨fault, hError, -⟩ | ⟨hNone, -⟩
      · cases hError.symm.trans hSome
      · cases hNone.symm.trans hSome
  | reorganised memPool hCandidate hRival hNull hHeight hOk hCheck =>
    rw [forall_candidate_iff hCandidate, strands_rival_iff hTree hRival]
    have hNot : ¬ ∀ result, overlayCheck verifyScript node block ≠ .ok (some result) := fun hAll => hAll _ hCheck
    refine (cleanRefusal_stored_iff hCandidate.new ?_).trans ?_
    · exact hTree.entry_withBlock_self hCandidate true
    · rw [endResult_eq_true_iff]
      simp only [hOk, hNull, hHeight, hNot, ne_eq, not_false_eq_true, true_and, false_or]

theorem cleanRefusal_iff_tied : CleanRefusal tied secondRival (acceptBlock anyScript tied secondRival) ↔
    ∀ prev active, tied.Candidate secondRival prev active → ¬ Strands anyScript tied secondRival prev active :=
  cleanRefusal_iff tied_reachable secondRival

/-- A block on the second of the two tied blocks that spends an output of the block below it. -/
def prematureRival : Block :=
  blockOn (rivalBlock 2).getHash [plainCoinbase [3, 0] (50 * coin),
    plainSpend ⟨(plainCoinbase [2, 0] (50 * coin)).getHash, 0⟩ (50 * coin)] 1296688603 4

/-- The call returns `false` and the block stays in the store. -/
theorem exists_refused_and_stored : ∃ (verifyScript : VerifyScript) (node : Node) (block : Block),
    Reachable verifyScript node ∧ (acceptBlock verifyScript node block).result = .ok false ∧
      node.blocks[block.getHash]? = none ∧
      (acceptBlock verifyScript node block).node.blocks[block.getHash]? = some block := by
  refine ⟨anyScript, tied, prematureRival, tied_reachable, ?_⟩
  decide +kernel

end Node

end BitcoinGpuMiner
