import BitcoinGpuMiner.Chain.ActiveChain
import BitcoinGpuMiner.Chain.PlainBlock

/-! # When the active tip changes

A block that becomes the active tip is higher than the one before, unless it joins a side branch at the
height of the active tip and has the smaller hash.
-/

namespace BitcoinGpuMiner

open Foundation

set_option autoImplicit false

namespace Node

/-- If the active tip changes, the new one is higher. -/
def KeepsFirstSeen (node node' : Node) : Prop :=
  ∀ active active', node.tips.getActiveTip = some active → node'.tips.getActiveTip = some active' →
    active' ≠ active → active.height < active'.height

/-- A valid block of the height of the active tip that has a smaller hash. -/
def TakesTie (node : Node) (block : Block) (prev active : BlockIndex) : Prop :=
  node.checkBlock block = .ok true ∧ block.hashPrevBlock ≠ Uint256.null ∧ prev.height + 1 = active.height ∧
    block.getHash < active.hash

section Change

variable {node node' : Node} {block : Block} {prev active : BlockIndex}

theorem keepsFirstSeen_same (hTips : node'.tips = node.tips) : KeepsFirstSeen node node' := by
  intro active active' hActive hActive' hNe
  rw [hTips, hActive] at hActive'
  exact absurd (Option.some.inj hActive').symm hNe

theorem keepsFirstSeen_addTip_iff (hTree : node.Tree) (hCandidate : node.Candidate block prev active)
    (hTips : node'.tips = (node.withBlock block prev true).tips) : KeepsFirstSeen node node' ↔
      ¬ (prev.height + 1 = active.height ∧ block.getHash < active.hash) := by
  have hActive' := hTree.activeTip_withBlock hCandidate
  rw [← hTips] at hActive'
  constructor
  · rintro hKeeps ⟨hHeight, hHash⟩
    have hBeats : BlockTipManager.Beats (newIndex block prev) active := .inr ⟨hHeight, hHash⟩
    rw [if_pos hBeats] at hActive'
    have hLt := hKeeps active (newIndex block prev) hCandidate.active hActive' fun hEq => by
      rw [← hEq, newIndex_hash] at hHash
      exact Nat.lt_irrefl _ hHash
    rw [newIndex_height] at hLt
    omega
  · intro hNot other active' hOther hTip hNe
    cases hCandidate.active.symm.trans hOther
    cases hActive'.symm.trans hTip
    split at hNe
    case isTrue hBeats =>
      rw [if_pos hBeats]
      rcases hBeats with hHigher | ⟨hHeight, hHash⟩
      · exact hHigher
      · exact absurd ⟨hHeight, hHash⟩ hNot
    case isFalse => exact absurd rfl hNe

theorem not_takesTie_of_level (hHeight : prev.height = active.height) : ¬ TakesTie node block prev active := by
  rintro ⟨-, -, hTie, -⟩
  omega

theorem height_eq_of_onTop (hTree : node.Tree) (hCandidate : node.Candidate block prev active)
    (hTop : block.hashPrevBlock = active.hash) : prev.height = active.height := by
  rw [← hTree.prev_core_eq_active hCandidate hTop, BlockIndex.core_height]

end Change

/-- The property for one call: it fails exactly for a valid block that wins a tie by its hash. -/
theorem keepsFirstSeen_iff {verifyScript : VerifyScript} {node : Node} (hReach : Reachable verifyScript node)
    (block : Block) : KeepsFirstSeen node (acceptBlock verifyScript node block).node ↔
      ∀ prev active, node.Candidate block prev active → ¬ TakesTie node block prev active := by
  have hTree : node.Tree := hReach.tree
  have hCase := hTree.acceptBlock_cases verifyScript block
  generalize acceptBlock verifyScript node block = outcome at hCase
  cases hCase with
  | known hKnown =>
    exact iff_of_true (keepsFirstSeen_same rfl) (forall_candidate_of_known hKnown)
  | orphan hNew hParent =>
    obtain ⟨orphanBlocks, hNode⟩ := acceptOrphan_node node block
    exact iff_of_true (keepsFirstSeen_same (by rw [hNode])) (Tree.forall_candidate_of_orphan hParent)
  | extended memPool hCandidate hTop hOk hValid hNull =>
    have hHeight := height_eq_of_onTop hTree hCandidate hTop
    rw [forall_candidate_iff hCandidate]
    refine iff_of_true ((keepsFirstSeen_addTip_iff hTree hCandidate rfl).mpr ?_) (not_takesTie_of_level hHeight)
    omega
  | notExtended hCandidate hTop =>
    rw [forall_candidate_iff hCandidate]
    exact iff_of_true (keepsFirstSeen_same rfl) (not_takesTie_of_level (height_eq_of_onTop hTree hCandidate hTop))
  | branched hCandidate hBeside hOk hNull =>
    rw [hTree.prev_hash hCandidate] at hNull
    rw [forall_candidate_iff hCandidate, keepsFirstSeen_addTip_iff hTree hCandidate rfl, TakesTie,
      hTree.checkBlock_eq, hOk]
    simp only [hNull, ne_eq, not_false_eq_true, true_and]
  | notBranched hCandidate hBeside hNot =>
    rw [forall_candidate_iff hCandidate, TakesTie, hTree.checkBlock_eq, Except.ok.injEq, ← hTree.prev_hash hCandidate]
    refine iff_of_true (keepsFirstSeen_same rfl) ?_
    rintro ⟨hOk, hNull, -⟩
    exact hNot ⟨hOk, hNull⟩
  | crashed hCandidate hRival | notOvertaken hCandidate hRival | savedOnly hCandidate hRival =>
    rw [forall_candidate_iff hCandidate]
    exact iff_of_true (keepsFirstSeen_same rfl) (not_takesTie_of_level hRival.height)
  | reorganised memPool hCandidate hRival =>
    have hHeight := hRival.height
    rw [forall_candidate_iff hCandidate]
    refine iff_of_true ((keepsFirstSeen_addTip_iff hTree hCandidate rfl).mpr ?_) (not_takesTie_of_level hHeight)
    omega

theorem keepsFirstSeen_iff_tied : KeepsFirstSeen tied (acceptBlock anyScript tied secondRival).node ↔
    ∀ prev active, tied.Candidate secondRival prev active → ¬ TakesTie tied secondRival prev active :=
  keepsFirstSeen_iff tied_reachable secondRival

/-- The second of two blocks of height one takes over from the first. -/
theorem exists_tie_taken : ∃ (verifyScript : VerifyScript) (node : Node) (block : Block) (active active' : BlockIndex),
    Reachable verifyScript node ∧ node.tips.getActiveTip = some active ∧
      (acceptBlock verifyScript node block).node.tips.getActiveTip = some active' ∧ active' ≠ active ∧
      active'.height = active.height := by
  have hEvaluated : returnsAll anyScript initial [rivalBlock 2] = true ∧
      (acceptAll anyScript initial [rivalBlock 2]).tips.getActiveTip =
        some (BlockIndex.make 1 (rivalBlock 2).getHash params.hashGenesisBlock) ∧
      (acceptBlock anyScript (acceptAll anyScript initial [rivalBlock 2]) (rivalBlock 1)).node.tips.getActiveTip =
        some (BlockIndex.make 1 (rivalBlock 1).getHash params.hashGenesisBlock) ∧
      BlockIndex.make 1 (rivalBlock 1).getHash params.hashGenesisBlock ≠
        BlockIndex.make 1 (rivalBlock 2).getHash params.hashGenesisBlock := by
    decide +kernel
  obtain ⟨hReturns, hActive, hTaken, hNe⟩ := hEvaluated
  exact ⟨anyScript, acceptAll anyScript initial [rivalBlock 2], rivalBlock 1, _, _,
    Reachable.acceptAll _ .refl hReturns, hActive, hTaken, hNe, rfl⟩

end Node

end BitcoinGpuMiner
