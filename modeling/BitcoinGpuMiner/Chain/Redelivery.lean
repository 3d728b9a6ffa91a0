import BitcoinGpuMiner.Chain.Orphans

/-! # A block that is delivered twice

A block in the index is refused at once, and a call that changed nothing changes nothing when it
is repeated. What remains are the orphans, for which the search of the pool decides.
-/

namespace BitcoinGpuMiner

open Foundation

set_option autoImplicit false

namespace Node

/-- Once a call has returned, one more call on the same block changes nothing. -/
def Harmless (verifyScript : VerifyScript) (node : Node) (block : Block) : Prop :=
  ∀ node' result, acceptBlock verifyScript node block = ⟨node', .ok result⟩ →
    (acceptBlock verifyScript node' block).node = node'

/-- The block goes to the pool and will not be found there. -/
structure Forgotten (node : Node) (block : Block) : Prop where
  new : node.entry block.getHash = none
  parent : node.entry block.hashPrevBlock = none
  missed : ¬ node.Recognised block.getHash
  ahead : node.waiting block.getHash = true ∨ block.hashPrevBlock = block.getHash →
    block.hashPrevBlock < block.getHash

def DistinctOrphans (node : Node) : Prop := (node.orphanBlocks.map fun entry => entry.2.getHash).Nodup

/-- The block goes to the pool though it is there. -/
structure Doubled (node : Node) (block : Block) : Prop where
  new : node.entry block.getHash = none
  parent : node.entry block.hashPrevBlock = none
  missed : ¬ node.Recognised block.getHash
  kept : ∃ entry ∈ node.orphanBlocks, entry.2.getHash = block.getHash

section Call

variable {verifyScript : VerifyScript} {node : Node} {block : Block}

theorem AcceptCase.same_or_indexed (hTree : node.Tree) {outcome : Outcome}
    (hCase : AcceptCase verifyScript node block outcome)
    (hPlaced : node.entry block.getHash = none → node.entry block.hashPrevBlock ≠ none) :
    outcome.node = node ∨ outcome.node.entry block.getHash ≠ none := by
  cases hCase with
  | known | notExtended | notBranched | crashed | notOvertaken => exact .inl rfl
  | orphan hNew hParent => exact absurd hParent (hPlaced hNew)
  | extended _ hCandidate => exact .inr (hTree.entry_withBlock_self hCandidate true)
  | branched hCandidate => exact .inr (hTree.entry_withBlock_self hCandidate true)
  | savedOnly hCandidate => exact .inr (hTree.entry_withBlock_self hCandidate false)
  | reorganised _ hCandidate => exact .inr (hTree.entry_withBlock_self hCandidate false)

theorem Tree.harmless_of_placed (hTree : node.Tree)
    (hPlaced : node.entry block.getHash = none → node.entry block.hashPrevBlock ≠ none) :
    Harmless verifyScript node block := by
  intro node' result hAccept
  have hCase := (hTree.acceptBlock_cases verifyScript block).same_or_indexed hTree hPlaced
  rw [hAccept] at hCase
  rcases hCase with hSame | hKnown
  · have hNode : node' = node := hSame
    rw [hNode] at hAccept ⊢
    rw [hAccept]
  · rw [Tree.acceptBlock_known verifyScript hKnown]

theorem insertOrphan_ne_self (orphanBlocks : List (Uint256 × Block)) (block : Block) :
    insertOrphan orphanBlocks block ≠ orphanBlocks := by
  intro hEq
  have hLength := (insertBehind_perm orphanKey (block.hashPrevBlock, block) orphanBlocks).length_eq
  rw [← insertOrphan_eq, hEq, List.length_cons] at hLength
  omega

theorem Tree.harmless_orphan_iff (hTree : node.Tree) (hKept : node.OrphansKept)
    (hNew : node.entry block.getHash = none) (hParent : node.entry block.hashPrevBlock = none)
    (hMissed : ¬ node.Recognised block.getHash) : Harmless verifyScript node block ↔
      ({ node with orphanBlocks := insertOrphan node.orphanBlocks block } : Node).Recognised block.getHash := by
  have hFirst := (hTree.acceptBlock_orphan verifyScript hNew hParent).trans (hKept.acceptOrphan_of_not hMissed)
  have hCase := hTree.acceptBlock_cases verifyScript block
  rw [hFirst] at hCase
  have hTree' := hTree.acceptCase hCase
  have hKept' := hCase.orphansKept hKept
  have hSecond : acceptBlock verifyScript { node with orphanBlocks := insertOrphan node.orphanBlocks block } block =
      acceptOrphan { node with orphanBlocks := insertOrphan node.orphanBlocks block } block :=
    hTree'.acceptBlock_orphan verifyScript hNew hParent
  constructor
  · intro hHarmless
    apply Classical.byContradiction
    intro hAgain
    have hSame := hHarmless _ _ hFirst
    rw [hSecond, hKept'.acceptOrphan_of_not hAgain] at hSame
    exact insertOrphan_ne_self _ _ (congrArg Node.orphanBlocks hSame)
  · intro hSeen node' result hAccept
    cases hFirst.symm.trans hAccept
    rw [hSecond, hKept'.acceptOrphan_of_recognised hSeen]

theorem Tree.harmless_iff (hTree : node.Tree) (hKept : node.OrphansKept) :
    Harmless verifyScript node block ↔ ¬ node.Forgotten block := by
  by_cases hOrphan : node.entry block.getHash = none ∧ node.entry block.hashPrevBlock = none
  case neg =>
    refine iff_of_true (hTree.harmless_of_placed fun hNew hParent => hOrphan ⟨hNew, hParent⟩) ?_
    intro hForgotten
    exact hOrphan ⟨hForgotten.new, hForgotten.parent⟩
  obtain ⟨hNew, hParent⟩ := hOrphan
  by_cases hSeen : node.Recognised block.getHash
  · refine iff_of_true ?_ fun hForgotten => hForgotten.missed hSeen
    intro node' result hAccept
    have hFirst := (hTree.acceptBlock_orphan verifyScript hNew hParent).trans (hKept.acceptOrphan_of_recognised hSeen)
    cases hFirst.symm.trans hAccept
    rw [hFirst]
  · rw [hTree.harmless_orphan_iff hKept hNew hParent hSeen, recognised_insertOrphan_iff hSeen]
    constructor
    · rintro ⟨hKeyed, hBehind⟩ hForgotten
      exact hBehind (hForgotten.ahead hKeyed)
    · intro hNot
      apply Classical.byContradiction
      intro hUnseen
      refine hNot ⟨hNew, hParent, hSeen, ?_⟩
      intro hKeyed
      apply Classical.byContradiction
      intro hBehind
      exact hUnseen ⟨hKeyed, hBehind⟩

theorem nodup_insertOrphan_iff (orphanBlocks : List (Uint256 × Block)) (block : Block) :
    ((insertOrphan orphanBlocks block).map fun entry => entry.2.getHash).Nodup ↔
      (¬ ∃ entry ∈ orphanBlocks, entry.2.getHash = block.getHash) ∧
        (orphanBlocks.map fun entry => entry.2.getHash).Nodup := by
  rw [insertOrphan_eq, ((insertBehind_perm ..).map _).nodup_iff, List.map_cons, List.nodup_cons, List.mem_map]

theorem Tree.distinctOrphans_iff (hTree : node.Tree) (hKept : node.OrphansKept) (hDistinct : node.DistinctOrphans) :
    (acceptBlock verifyScript node block).node.DistinctOrphans ↔ ¬ node.Doubled block := by
  by_cases hOrphan : node.entry block.getHash = none ∧ node.entry block.hashPrevBlock = none
  case neg =>
    have hSame : (acceptBlock verifyScript node block).node.orphanBlocks = node.orphanBlocks := by
      have hCase := hTree.acceptBlock_cases verifyScript block
      generalize acceptBlock verifyScript node block = outcome at hCase
      cases hCase with
      | orphan hNew hParent => exact absurd ⟨hNew, hParent⟩ hOrphan
      | _ => rfl
    rw [DistinctOrphans, hSame]
    exact iff_of_true hDistinct fun hDoubled => hOrphan ⟨hDoubled.new, hDoubled.parent⟩
  obtain ⟨hNew, hParent⟩ := hOrphan
  rw [hTree.acceptBlock_orphan verifyScript hNew hParent]
  by_cases hSeen : node.Recognised block.getHash
  · rw [hKept.acceptOrphan_of_recognised hSeen]
    exact iff_of_true hDistinct fun hDoubled => hDoubled.missed hSeen
  · rw [hKept.acceptOrphan_of_not hSeen, DistinctOrphans, nodup_insertOrphan_iff]
    constructor
    · rintro ⟨hFresh, -⟩ hDoubled
      exact hFresh hDoubled.kept
    · intro hNot
      exact ⟨fun hThere => hNot ⟨hNew, hParent, hSeen, hThere⟩, hDistinct⟩

end Call

theorem Run.distinctOrphans {verifyScript : VerifyScript} {node : Node}
    (hRun : Run verifyScript (fun node block => ¬ node.Doubled block) node) : node.DistinctOrphans := by
  have hInvariant : node.OrphansKept ∧ node.DistinctOrphans := by
    refine (hRun.invariant (motive := fun node => node.OrphansKept ∧ node.DistinctOrphans) ?_ ?_).2
    · refine ⟨initial_orphansKept, ?_⟩
      rw [DistinctOrphans, initial_orphanBlocks]
      exact List.nodup_nil
    · rintro node block node' result hTree ⟨hKept, hDistinct⟩ hAllowed hAccept
      have hKept' := (hTree.acceptBlock_cases verifyScript block).orphansKept hKept
      have hDistinct' : (acceptBlock verifyScript node block).node.DistinctOrphans :=
        (hTree.distinctOrphans_iff hKept hDistinct).mpr hAllowed
      rw [hAccept] at hKept' hDistinct'
      exact ⟨hKept', hDistinct'⟩
  exact hInvariant.2

/-- Redelivery does no harm except to a block the pool forgets, and the hashes in the pool stay
distinct in every run that never adds a block twice. -/
theorem harmless_iff_and_distinctOrphans (verifyScript : VerifyScript) :
    (∀ node, Reachable verifyScript node → ∀ block, Harmless verifyScript node block ↔ ¬ node.Forgotten block) ∧
      (∀ node, Run verifyScript (fun node block => ¬ node.Doubled block) node → node.DistinctOrphans ∧
        ∀ block, (acceptBlock verifyScript node block).node.DistinctOrphans ↔ ¬ node.Doubled block) := by
  constructor
  · intro node hReach block
    exact hReach.tree.harmless_iff hReach.orphansKept
  · intro node hRun
    refine ⟨hRun.distinctOrphans, ?_⟩
    intro block
    exact hRun.tree.distinctOrphans_iff hRun.orphansKept hRun.distinctOrphans

/-- A run that ends with a block in the pool, and one more call on that block. -/
theorem harmless_iff_and_distinctOrphans_orphan : ∃ node,
    Run anyScript (fun node block => ¬ node.Doubled block) node ∧
      (node.orphanBlocks.map fun entry => entry.2.getHash) = [secondRival.getHash] ∧
      (Harmless anyScript node secondRival ↔ ¬ node.Forgotten secondRival) ∧ node.DistinctOrphans ∧
      ((acceptBlock anyScript node secondRival).node.DistinctOrphans ↔ ¬ node.Doubled secondRival) := by
  have hEvaluated : (acceptBlock anyScript initial secondRival).result = .ok true ∧
      ((acceptBlock anyScript initial secondRival).node.orphanBlocks.map fun entry => entry.2.getHash) =
        [secondRival.getHash] := by
    decide +kernel
  obtain ⟨hAccept, hPool⟩ := hEvaluated
  have hAllowed : ¬ initial.Doubled secondRival := by
    rintro ⟨-, -, -, entry, hEntry, -⟩
    rw [initial_orphanBlocks] at hEntry
    cases hEntry
  have hStep : Step anyScript initial secondRival (acceptBlock anyScript initial secondRival).node :=
    ⟨true, by rw [← hAccept]⟩
  obtain ⟨hHarmless, hRuns⟩ := harmless_iff_and_distinctOrphans anyScript
  have hRun : Run anyScript (fun node block => ¬ node.Doubled block) (acceptBlock anyScript initial secondRival).node :=
    .tail .refl ⟨secondRival, hAllowed, hStep⟩
  have hReach : Reachable anyScript (acceptBlock anyScript initial secondRival).node :=
    .tail .refl ⟨secondRival, trivial, hStep⟩
  exact ⟨_, hRun, hPool, hHarmless _ hReach secondRival, (hRuns _ hRun).1, (hRuns _ hRun).2 secondRival⟩

/-- A block whose parent has not arrived, delivered twice. -/
theorem exists_orphan_twice : ∃ (verifyScript : VerifyScript) (node : Node) (block : Block),
    Reachable verifyScript node ∧ blockOk block = true ∧ (acceptBlock verifyScript node block).result = .ok true ∧
      ((acceptBlock verifyScript node block).node.orphanBlocks.map fun entry => entry.2.getHash) = [block.getHash] ∧
      ((acceptBlock verifyScript (acceptBlock verifyScript node block).node block).node.orphanBlocks.map
        fun entry => entry.2.getHash) = [block.getHash, block.getHash] := by
  refine ⟨anyScript, initial, secondRival, .refl, ?_⟩
  decide +kernel

end Node

end BitcoinGpuMiner
