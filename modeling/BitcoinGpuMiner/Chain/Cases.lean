import BitcoinGpuMiner.Chain.Reorganise

/-! # Everything a call of `AcceptBlock` can do

In a block tree the outcome of a call is one of the cases of `AcceptCase`, each with the
conditions that lead to it. Every invariant is derived from this list.
-/

namespace BitcoinGpuMiner

open Foundation

set_option autoImplicit false

namespace Node

/-- A block that is not indexed yet but whose parent is. -/
structure Candidate (node : Node) (block : Block) (prev active : BlockIndex) : Prop where
  new : node.entry block.getHash = none
  parent : node.blockIndex[block.hashPrevBlock]? = some prev
  active : node.tips.getActiveTip = some active

/-- The parent is a tip of the active tip's height, but not the active tip. -/
structure Rival (node : Node) (block : Block) (prev active : BlockIndex) : Prop where
  other : block.hashPrevBlock ≠ active.hash
  tip : node.tips.getBlockTipMap[block.hashPrevBlock]? = some prev.core
  height : prev.height = active.height

/-- The parent is neither the active tip nor a rival of it. -/
structure Beside (node : Node) (block : Block) (prev active : BlockIndex) : Prop where
  other : block.hashPrevBlock ≠ active.hash
  low : node.tips.getBlockTipMap[block.hashPrevBlock]? = none ∨ prev.height + 1 ≤ active.height

section Place

variable {node : Node} {block : Block} {prev active : BlockIndex}

theorem Candidate.unique {prev' active' : BlockIndex} (hCandidate : node.Candidate block prev active)
    (hOther : node.Candidate block prev' active') : prev' = prev ∧ active' = active :=
  ⟨Option.some.inj (hOther.parent.symm.trans hCandidate.parent),
    Option.some.inj (hOther.active.symm.trans hCandidate.active)⟩

theorem Candidate.hash_ne (hCandidate : node.Candidate block prev active) {h : Uint256} {index : BlockIndex}
    (hEntry : node.entry h = some index) : block.getHash ≠ h := by
  rintro rfl
  cases hCandidate.new.symm.trans hEntry

theorem forall_candidate_iff {motive : BlockIndex → BlockIndex → Prop} (hCandidate : node.Candidate block prev active) :
    (∀ prev active, node.Candidate block prev active → motive prev active) ↔ motive prev active := by
  constructor
  · intro hAll
    exact hAll prev active hCandidate
  · intro hHere prev' active' hOther
    obtain ⟨rfl, rfl⟩ := hCandidate.unique hOther
    exact hHere

theorem forall_candidate_of_known {motive : BlockIndex → BlockIndex → Prop} (hKnown : node.entry block.getHash ≠ none) :
    ∀ prev active, node.Candidate block prev active → motive prev active := by
  intro prev active hCandidate
  exact absurd hCandidate.new hKnown

theorem Beside.not_rival (hBeside : node.Beside block prev active) :
    ¬ node.Rival block prev active := by
  intro hRival
  rcases hBeside.low with hNone | hLow
  · cases hNone.symm.trans hRival.tip
  · have := hRival.height
    omega

end Place

/-- How a call ends once its block is in the index. -/
def endResult (node : Node) (block : Block) : Except Fault Bool :=
  if node.waiting block.getHash then .error .deadlock else .ok true

theorem endResult_eq_true_iff (node : Node) (block : Block) :
    node.endResult block = .ok true ↔ ¬ node.waiting block.getHash = true := by
  rw [endResult]
  split <;> simp_all

/-- The check of the new block in a reorganisation from height one. -/
def overlayCheck (verifyScript : VerifyScript) (node : Node) (block : Block) :
    Except Fault (Option CheckTransactionResult) :=
  checkTransactions verifyScript node.ledger (scriptFlagsAt 2) 2 (some ⟨∅, ∅, 1⟩) block.vtx

inductive AcceptCase (verifyScript : VerifyScript) (node : Node) (block : Block) : Outcome → Prop where
  | known (hKnown : node.entry block.getHash ≠ none) : AcceptCase verifyScript node block ⟨node, .ok false⟩
  | orphan (hNew : node.entry block.getHash = none) (hParent : node.entry block.hashPrevBlock = none) :
      AcceptCase verifyScript node block (acceptOrphan node block)
  | extended {prev active : BlockIndex} (memPool : TXMemPool) (hCandidate : node.Candidate block prev active)
      (hTop : block.hashPrevBlock = active.hash) (hOk : blockOk block = true)
      (hValid : VtxValid verifyScript node.ledger (prev.height + 1) block.vtx) (hNull : prev.hash ≠ Uint256.null)
      (hPool : (node.extend block prev).procOrphanTx verifyScript = .ok memPool) :
      AcceptCase verifyScript node block ⟨{ node.extend block prev with memPool := memPool }, node.endResult block⟩
  | notExtended {prev active : BlockIndex} (hCandidate : node.Candidate block prev active)
      (hTop : block.hashPrevBlock = active.hash)
      (hNot : ¬ (blockOk block = true ∧ VtxValid verifyScript node.ledger (prev.height + 1) block.vtx ∧
        prev.hash ≠ Uint256.null)) :
      AcceptCase verifyScript node block ⟨node, .ok false⟩
  | branched {prev active : BlockIndex} (hCandidate : node.Candidate block prev active)
      (hBeside : node.Beside block prev active) (hOk : blockOk block = true) (hNull : prev.hash ≠ Uint256.null) :
      AcceptCase verifyScript node block ⟨node.withBlock block prev true, .ok true⟩
  | notBranched {prev active : BlockIndex} (hCandidate : node.Candidate block prev active)
      (hBeside : node.Beside block prev active) (hNot : ¬ (blockOk block = true ∧ prev.hash ≠ Uint256.null)) :
      AcceptCase verifyScript node block ⟨node, .ok false⟩
  | crashed {prev active : BlockIndex} (hCandidate : node.Candidate block prev active)
      (hRival : node.Rival block prev active)
      (hBad : block.hashPrevBlock = Uint256.null ∨ (2 ≤ active.height ∧ blockOk block = true)) :
      AcceptCase verifyScript node block ⟨node, .error .nullDereference⟩
  | notOvertaken {prev active : BlockIndex} (hCandidate : node.Candidate block prev active)
      (hRival : node.Rival block prev active) (hNull : block.hashPrevBlock ≠ Uint256.null)
      (hNot : blockOk block = false) : AcceptCase verifyScript node block ⟨node, .ok false⟩
  | savedOnly {prev active : BlockIndex} {result : Except Fault Bool} (hCandidate : node.Candidate block prev active)
      (hRival : node.Rival block prev active) (hNull : block.hashPrevBlock ≠ Uint256.null)
      (hHeight : active.height = 1) (hOk : blockOk block = true)
      (hCheck : (∃ fault, overlayCheck verifyScript node block = .error fault ∧ result = .error fault) ∨
        (overlayCheck verifyScript node block = .ok none ∧ result = .ok false)) :
      AcceptCase verifyScript node block ⟨node.withBlock block prev false, result⟩
  | reorganised {prev active : BlockIndex} {result : CheckTransactionResult} (memPool : TXMemPool)
      (hCandidate : node.Candidate block prev active) (hRival : node.Rival block prev active)
      (hNull : block.hashPrevBlock ≠ Uint256.null) (hHeight : active.height = 1) (hOk : blockOk block = true)
      (hCheck : overlayCheck verifyScript node block = .ok (some result))
      (hPool : (node.reorganised block prev active).procOrphanTx verifyScript = .ok memPool) :
      AcceptCase verifyScript node block
        ⟨{ node.reorganised block prev active with memPool := memPool }, node.endResult block⟩

namespace Tree

variable {node : Node} {block : Block} {prev active : BlockIndex}

theorem candidate_entry (hCandidate : node.Candidate block prev active) :
    node.entry block.hashPrevBlock = some prev.core := entry_of_lookup hCandidate.parent

theorem not_candidate_of_orphan (hParent : node.entry block.hashPrevBlock = none) :
    ¬ node.Candidate block prev active := by
  intro hCandidate
  cases hParent.symm.trans (candidate_entry hCandidate)

theorem forall_candidate_of_orphan {motive : BlockIndex → BlockIndex → Prop}
    (hParent : node.entry block.hashPrevBlock = none) :
    ∀ prev active, node.Candidate block prev active → motive prev active := by
  intro prev active hCandidate
  exact absurd hCandidate (not_candidate_of_orphan hParent)

theorem entry_withBlock_self (hTree : node.Tree) (hCandidate : node.Candidate block prev active) (tip : Bool) :
    (node.withBlock block prev tip).entry block.getHash ≠ none := by
  rw [hTree.entry_withBlock hCandidate.parent, if_pos rfl]
  exact Option.some_ne_none _

theorem candidate_cases (hTree : node.Tree) (hCandidate : node.Candidate block prev active) :
    block.hashPrevBlock = active.hash ∨ node.Beside block prev active ∨ node.Rival block prev active := by
  by_cases hTop : block.hashPrevBlock = active.hash
  · exact .inl hTop
  cases hTip : node.tips.getBlockTipMap[block.hashPrevBlock]? with
  | none => exact .inr (.inl ⟨hTop, .inl hTip⟩)
  | some tip =>
    have hCore : prev.core = tip :=
      Option.some.inj ((candidate_entry hCandidate).symm.trans (hTree.tipEntry _ tip hTip))
    subst hCore
    have hLe : prev.core.height ≤ active.height := (hTree.isActive hCandidate.active).highest _ _ hTip
    have hCoreHeight : prev.core.height = prev.height := rfl
    by_cases hLow : prev.height + 1 ≤ active.height
    · exact .inr (.inl ⟨hTop, .inr hLow⟩)
    · exact .inr (.inr ⟨hTop, hTip, by omega⟩)

theorem prev_hash (hTree : node.Tree) (hCandidate : node.Candidate block prev active) :
    prev.hash = block.hashPrevBlock := hTree.hash_of_parent hCandidate.parent

theorem prev_core_eq_active (hTree : node.Tree) (hCandidate : node.Candidate block prev active)
    (hTop : block.hashPrevBlock = active.hash) : prev.core = active := by
  have hEntry := candidate_entry hCandidate
  rw [hTop] at hEntry
  exact Option.some.inj (hEntry.symm.trans (hTree.active_entry hCandidate.active))

theorem prev_core_ne_active (hTree : node.Tree) (hCandidate : node.Candidate block prev active)
    (hOther : block.hashPrevBlock ≠ active.hash) : prev.core ≠ active := by
  rintro rfl
  exact hOther (hTree.prev_hash hCandidate).symm

section Dispatch

variable (verifyScript : VerifyScript)

theorem acceptBlock_onTop (hTree : node.Tree) (hCandidate : node.Candidate block prev active)
    (hTop : block.hashPrevBlock = active.hash) :
    acceptBlock verifyScript node block = acceptLongest verifyScript node block (some prev) := by
  have hTip : node.tips.getTip block.hashPrevBlock = some active := by
    rw [hTop]
    exact (hTree.isActive hCandidate.active).entry
  unfold acceptBlock
  dsimp only
  rw [contains_eq_false hCandidate.new, hTip, hCandidate.active, hCandidate.parent]
  simp

theorem acceptBlock_beside (hTree : node.Tree) (hCandidate : node.Candidate block prev active)
    (hBeside : node.Beside block prev active) :
    acceptBlock verifyScript node block = acceptSide node block (some prev) := by
  unfold acceptBlock
  dsimp only
  rw [contains_eq_false hCandidate.new, hCandidate.active, hCandidate.parent]
  cases hTip : node.tips.getTip block.hashPrevBlock with
  | none => simp
  | some tip =>
    have hCore : prev.core = tip :=
      Option.some.inj ((candidate_entry hCandidate).symm.trans (hTree.tipEntry _ tip hTip))
    subst hCore
    have hNe : prev.core ≠ active := hTree.prev_core_ne_active hCandidate hBeside.other
    have hLow : ¬ prev.core.height + 1 > active.height := by
      rcases hBeside.low with hNone | hLow
      · cases hNone.symm.trans hTip
      · exact Int.not_lt.mpr hLow
    simp only [Bool.false_eq_true, if_false, hNe, hLow]

theorem acceptBlock_rival (hTree : node.Tree) (hCandidate : node.Candidate block prev active)
    (hRival : node.Rival block prev active) :
    acceptBlock verifyScript node block =
      acceptOvertaking verifyScript node block prev.core active (some prev) := by
  have hTip : node.tips.getTip block.hashPrevBlock = some prev.core := hRival.tip
  have hNe : prev.core ≠ active := hTree.prev_core_ne_active hCandidate hRival.other
  have hHigh : prev.core.height + 1 > active.height := by
    have : prev.core.height = active.height := hRival.height
    omega
  unfold acceptBlock
  dsimp only
  rw [contains_eq_false hCandidate.new, hTip, hCandidate.active, hCandidate.parent]
  simp only [Bool.false_eq_true, if_false, hNe, hHigh, if_true]

theorem acceptBlock_known (hKnown : node.entry block.getHash ≠ none) :
    acceptBlock verifyScript node block = ⟨node, .ok false⟩ := by
  have hContains : node.blockIndex.contains block.getHash = true := by
    rw [contains_eq_isSome, Option.isSome_iff_ne_none]
    exact fun hNone => hKnown ((entry_eq_none_iff ..).mpr hNone)
  unfold acceptBlock
  dsimp only
  rw [if_pos hContains]

theorem acceptBlock_orphan (hTree : node.Tree) (hNew : node.entry block.getHash = none)
    (hParent : node.entry block.hashPrevBlock = none) :
    acceptBlock verifyScript node block = acceptOrphan node block := by
  have hTip : node.tips.getTip block.hashPrevBlock = none := by
    cases hTip : node.tips.getTip block.hashPrevBlock with
    | none => rfl
    | some tip => cases hParent.symm.trans (hTree.tipEntry _ tip hTip)
  unfold acceptBlock
  dsimp only
  rw [contains_eq_false hNew, hTip, (entry_eq_none_iff ..).mp hParent]
  rfl

end Dispatch

theorem exists_active_addTip (manager : BlockTipManager) (index : BlockIndex) :
    ∃ active, (manager.addTip index).getActiveTip = some active := by
  have hEntry : (manager.addTip index).getBlockTipMap[index.hash]? = some index := by
    rw [BlockTipManager.getBlockTipMap_addTip, lookup_insert_self]
  exact BlockTipManager.getActiveTip_isSome hEntry

theorem acceptBlock_extends (hTree : node.Tree) (verifyScript : VerifyScript)
    (hCandidate : node.Candidate block prev active) (hTop : block.hashPrevBlock = active.hash)
    (hOk : blockOk block = true) (hValid : VtxValid verifyScript node.ledger (prev.height + 1) block.vtx)
    (hNull : prev.hash ≠ Uint256.null) :
    ∃ memPool, (node.extend block prev).procOrphanTx verifyScript = .ok memPool ∧
      acceptBlock verifyScript node block = ⟨{ node.extend block prev with memPool := memPool }, node.endResult block⟩ := by
  obtain ⟨newActive, hNewActive⟩ := exists_active_addTip node.tips (newIndex block prev)
  have hExtended : (node.extend block prev).tips.getActiveTip = some newActive := hNewActive
  obtain ⟨memPool, hPool, hEnd⟩ := acceptBlockOK_eq verifyScript hExtended block.getHash
  refine ⟨memPool, hPool, ?_⟩
  rw [hTree.acceptBlock_onTop verifyScript hCandidate hTop,
    hTree.acceptLongest_eq verifyScript hCandidate.new hCandidate.parent hOk hValid hNull, hEnd]
  rfl

/-- Nothing else can happen. -/
theorem acceptBlock_cases (hTree : node.Tree) (verifyScript : VerifyScript) (block : Block) :
    AcceptCase verifyScript node block (acceptBlock verifyScript node block) := by
  by_cases hKnown : node.entry block.getHash = none
  case neg =>
    rw [acceptBlock_known verifyScript hKnown]
    exact .known hKnown
  cases hLookup : node.blockIndex[block.hashPrevBlock]? with
  | none =>
    have hParent : node.entry block.hashPrevBlock = none := (entry_eq_none_iff ..).mpr hLookup
    rw [hTree.acceptBlock_orphan verifyScript hKnown hParent]
    exact .orphan hKnown hParent
  | some prev =>
    obtain ⟨active, hActive⟩ := hTree.exists_active
    have hCandidate : node.Candidate block prev active := ⟨hKnown, hLookup, hActive⟩
    rcases hTree.candidate_cases hCandidate with hTop | hBeside | hRival
    · rcases Classical.em (blockOk block = true ∧ VtxValid verifyScript node.ledger (prev.height + 1) block.vtx ∧
          prev.hash ≠ Uint256.null) with ⟨hOk, hValid, hNull⟩ | hNot
      · obtain ⟨memPool, hPool, hAccept⟩ := hTree.acceptBlock_extends verifyScript hCandidate hTop hOk hValid hNull
        rw [hAccept]
        exact .extended memPool hCandidate hTop hOk hValid hNull hPool
      · rw [hTree.acceptBlock_onTop verifyScript hCandidate hTop, hTree.acceptLongest_refused verifyScript hKnown hLookup hNot]
        exact .notExtended hCandidate hTop hNot
    · rw [hTree.acceptBlock_beside verifyScript hCandidate hBeside, hTree.acceptSide_eq hKnown]
      split
      case isTrue hAll => exact .branched hCandidate hBeside hAll.1 hAll.2
      case isFalse hNot => exact .notBranched hCandidate hBeside hNot
    · rw [hTree.acceptBlock_rival verifyScript hCandidate hRival]
      have hTip : prev.core.height = active.height := hRival.height
      by_cases hNull : block.hashPrevBlock = Uint256.null
      · rw [acceptOvertaking_of_null verifyScript hTip hNull]
        exact .crashed hCandidate hRival (.inl hNull)
      have hNonneg := hTree.nonneg _ active (hTree.active_entry hActive)
      have hZero : active.height ≠ 0 := by
        intro hZero
        apply hRival.other
        rw [(hTree.height_eq_zero_iff (hTree.active_entry hActive)).mp hZero]
        exact (hTree.height_eq_zero_iff (candidate_entry hCandidate)).mp (hRival.height.trans hZero)
      by_cases hHigh : 2 ≤ active.height
      · rw [acceptOvertaking_of_high verifyScript hTree hLookup hActive hTip hRival.height hNull hKnown hHigh]
        cases hOk : blockOk block with
        | false => exact .notOvertaken hCandidate hRival hNull hOk
        | true => exact .crashed hCandidate hRival (.inr ⟨hHigh, hOk⟩)
      · have hOne : active.height = 1 := by omega
        rw [acceptOvertaking_of_one verifyScript hTree hLookup hActive hTip hRival.height hNull hKnown hOne]
        cases hOk : blockOk block with
        | false => exact .notOvertaken hCandidate hRival hNull hOk
        | true =>
          rw [if_pos rfl]
          cases hCheck : overlayCheck verifyScript node block with
          | error fault =>
            rw [overlayCheck] at hCheck
            rw [hCheck]
            exact .savedOnly hCandidate hRival hNull hOne hOk (.inl ⟨fault, hCheck, rfl⟩)
          | ok r =>
            rw [overlayCheck] at hCheck
            rw [hCheck]
            cases r with
            | none => exact .savedOnly hCandidate hRival hNull hOne hOk (.inr ⟨hCheck, rfl⟩)
            | some result =>
              obtain ⟨newActive, hNewActive⟩ := exists_active_addTip node.tips (newIndex block prev)
              have hMoved : (node.reorganised block prev active).tips.getActiveTip = some newActive := hNewActive
              obtain ⟨memPool, hPool, hEnd⟩ := acceptBlockOK_eq verifyScript hMoved block.getHash
              dsimp only
              rw [hEnd]
              exact .reorganised memPool hCandidate hRival hNull hOne hOk hCheck hPool

section OnTop

variable {verifyScript : VerifyScript} {tip : BlockIndex}

theorem candidate_onTop (hTree : node.Tree) (hTip : node.tips.getActiveTip = some tip)
    (hTop : block.hashPrevBlock = tip.hash) (hFresh : node.entry block.getHash = none) :
    ∃ prev, node.Candidate block prev tip ∧ prev.core = tip := by
  obtain ⟨prev, hPrev, hCore⟩ := (entry_eq_some_iff ..).mp (hTree.active_entry hTip)
  rw [← hTop] at hPrev
  exact ⟨prev, ⟨hFresh, hPrev, hTip⟩, hCore⟩

theorem refused_onTop (hTree : node.Tree) (hTip : node.tips.getActiveTip = some tip)
    (hTop : block.hashPrevBlock = tip.hash)
    (hNot : ¬ (blockOk block = true ∧ VtxValid verifyScript node.ledger (tip.height + 1) block.vtx)) :
    (acceptBlock verifyScript node block).result = .ok false := by
  by_cases hFresh : node.entry block.getHash = none
  · obtain ⟨prev, hCandidate, rfl⟩ := hTree.candidate_onTop hTip hTop hFresh
    rw [hTree.acceptBlock_onTop verifyScript hCandidate hTop,
      hTree.acceptLongest_refused verifyScript hFresh hCandidate.parent fun hAll => hNot ⟨hAll.1, hAll.2.1⟩]
  · rw [acceptBlock_known verifyScript hFresh]

theorem accepted_onTop_iff (hTree : node.Tree) (hTip : node.tips.getActiveTip = some tip)
    (hTop : block.hashPrevBlock = tip.hash) : (acceptBlock verifyScript node block).result = .ok true ↔
      node.entry block.getHash = none ∧ tip.hash ≠ Uint256.null ∧ node.waiting block.getHash = false ∧
        blockOk block = true ∧ VtxValid verifyScript node.ledger (tip.height + 1) block.vtx := by
  constructor
  · intro hAccepted
    by_cases hFresh : node.entry block.getHash = none
    case neg =>
      rw [acceptBlock_known verifyScript hFresh] at hAccepted
      cases hAccepted
    obtain ⟨prev, hCandidate, rfl⟩ := hTree.candidate_onTop hTip hTop hFresh
    rcases Classical.em (blockOk block = true ∧ VtxValid verifyScript node.ledger (prev.height + 1) block.vtx ∧
        prev.hash ≠ Uint256.null) with ⟨hOk, hValid, hNull⟩ | hNot
    · obtain ⟨memPool, -, hAccept⟩ := hTree.acceptBlock_extends verifyScript hCandidate hTop hOk hValid hNull
      rw [hAccept] at hAccepted
      exact ⟨hFresh, hNull, Bool.eq_false_iff.mpr ((endResult_eq_true_iff ..).mp hAccepted), hOk, hValid⟩
    · rw [hTree.acceptBlock_onTop verifyScript hCandidate hTop,
        hTree.acceptLongest_refused verifyScript hFresh hCandidate.parent hNot] at hAccepted
      cases hAccepted
  · rintro ⟨hFresh, hNull, hNoOrphan, hOk, hValid⟩
    obtain ⟨prev, hCandidate, rfl⟩ := hTree.candidate_onTop hTip hTop hFresh
    obtain ⟨memPool, -, hAccept⟩ := hTree.acceptBlock_extends verifyScript hCandidate hTop hOk hValid hNull
    rw [hAccept, endResult, hNoOrphan]
    rfl

end OnTop

end Tree

end Node

end BitcoinGpuMiner
