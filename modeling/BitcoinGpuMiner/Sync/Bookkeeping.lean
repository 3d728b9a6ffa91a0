import BitcoinGpuMiner.Chain.PlainBlock
import BitcoinGpuMiner.Sync.Steps

/-! # The three containers of the download

A hash is expected, queued or asked for. The queue may hold a hash whose block has already been dealt with,
and a block the chain already has is never crossed off, so the containers go out of step.
-/

namespace BitcoinGpuMiner

open Foundation

set_option autoImplicit false

namespace Node

/-- The block is refused although the index has it afterwards: it is there already, or it is a valid block on
the rival of the active tip at height one whose transactions fail. -/
def Lingers (verifyScript : VerifyScript) (node : Node) (block : Block) : Prop :=
  node.entry block.getHash ≠ none ∨
    ∃ prev active, node.Candidate block prev active ∧ node.Rival block prev active ∧ active.height = 1 ∧
      node.checkBlock block = .ok true ∧ block.hashPrevBlock ≠ Uint256.null ∧
      overlayCheck verifyScript node block = .ok none

theorem endResult_ne_false (node : Node) (block : Block) : node.endResult block ≠ .ok false := by
  rw [endResult]
  split <;> simp

theorem Tree.lingers_iff {node : Node} (hTree : node.Tree) (verifyScript : VerifyScript) {block : Block}
    {prev active : BlockIndex} (hCandidate : node.Candidate block prev active) :
    Lingers verifyScript node block ↔ node.Rival block prev active ∧ active.height = 1 ∧ blockOk block = true ∧
      block.hashPrevBlock ≠ Uint256.null ∧ overlayCheck verifyScript node block = .ok none := by
  rw [Lingers, hTree.checkBlock_eq, Except.ok.injEq]
  constructor
  · rintro (hKnown | ⟨prev', active', hOther, hRest⟩)
    · exact absurd hCandidate.new hKnown
    · obtain ⟨rfl, rfl⟩ := hCandidate.unique hOther
      exact hRest
  · intro hRest
    exact .inr ⟨prev, active, hCandidate, hRest⟩

theorem Tree.refused_and_indexed_iff {node : Node} (hTree : node.Tree) (verifyScript : VerifyScript) (block : Block) :
    ((acceptBlock verifyScript node block).result = .ok false ∧
      (acceptBlock verifyScript node block).node.entry block.getHash ≠ none) ↔ Lingers verifyScript node block := by
  have hCase := hTree.acceptBlock_cases verifyScript block
  generalize acceptBlock verifyScript node block = outcome at hCase
  cases hCase with
  | known hKnown => exact iff_of_true ⟨rfl, hKnown⟩ (.inl hKnown)
  | orphan hNew hParent =>
    obtain ⟨orphanBlocks, hNode⟩ := acceptOrphan_node node block
    refine iff_of_false ?_ ?_
    · rintro ⟨-, hEntry⟩
      rw [hNode] at hEntry
      exact hEntry hNew
    · rintro (hKnown | ⟨prev, active, hCandidate, -⟩)
      · exact hKnown hNew
      · exact not_candidate_of_orphan hParent hCandidate
  | extended memPool hCandidate hTop =>
    rw [hTree.lingers_iff verifyScript hCandidate]
    exact iff_of_false (fun h => endResult_ne_false node block h.1) (fun h => h.1.other hTop)
  | notExtended hCandidate hTop =>
    rw [hTree.lingers_iff verifyScript hCandidate]
    exact iff_of_false (fun h => h.2 hCandidate.new) (fun h => h.1.other hTop)
  | branched hCandidate hBeside =>
    rw [hTree.lingers_iff verifyScript hCandidate]
    exact iff_of_false (fun h => by cases h.1) (fun h => hBeside.not_rival h.1)
  | notBranched hCandidate hBeside =>
    rw [hTree.lingers_iff verifyScript hCandidate]
    exact iff_of_false (fun h => h.2 hCandidate.new) (fun h => hBeside.not_rival h.1)
  | crashed hCandidate hRival hBad =>
    rw [hTree.lingers_iff verifyScript hCandidate]
    refine iff_of_false (fun h => by cases h.1) ?_
    rintro ⟨-, hOne, -, hNull, -⟩
    rcases hBad with hBad | ⟨hHigh, -⟩
    · exact hNull hBad
    · omega
  | notOvertaken hCandidate hRival hNull hNot =>
    rw [hTree.lingers_iff verifyScript hCandidate, hNot]
    exact iff_of_false (fun h => h.2 hCandidate.new) (fun h => by cases h.2.2.1)
  | savedOnly hCandidate hRival hNull hHeight hOk hCheck =>
    rw [hTree.lingers_iff verifyScript hCandidate]
    rcases hCheck with ⟨fault, hFault, rfl⟩ | ⟨hNone, rfl⟩
    · refine iff_of_false (fun h => by cases h.1) ?_
      rintro ⟨-, -, -, -, hCheck⟩
      cases hFault.symm.trans hCheck
    · exact iff_of_true ⟨rfl, hTree.entry_withBlock_self hCandidate false⟩ ⟨hRival, hHeight, hOk, hNull, hNone⟩
  | reorganised memPool hCandidate hRival hNull hHeight hOk hCheck =>
    rw [hTree.lingers_iff verifyScript hCandidate]
    refine iff_of_false (fun h => endResult_ne_false node block h.1) ?_
    rintro ⟨-, -, -, -, hNone⟩
    cases hCheck.symm.trans hNone

end Node

namespace InitialBlockDownloadManager

/-- Expected blocks are queued or asked for, and something is asked for while something is queued. -/
structure Covers (manager : InitialBlockDownloadManager) : Prop where
  expected : manager.hashIBDBlocks ⊆ manager.hashDownloadingBlock ∪ manager.hashSendingGetData.toFinset
  asking : manager.hashSendingGetData ≠ [] → manager.hashDownloadingBlock ≠ ∅

structure Books (manager : InitialBlockDownloadManager) : Prop extends manager.Covers where
  downloading : manager.hashDownloadingBlock ⊆ manager.hashIBDBlocks

end InitialBlockDownloadManager

namespace Download

open InitialBlockDownloadManager

/-- What handling a message has to leave behind before the end of the download. -/
structure KeepsBooks (message : SyncMessage) (state : Download Node) : Prop where
  books : state.manager.isFinish = false → state.manager.Books
  settled : ∀ block, message = .block block → state.manager.isFinish = false →
    state.chain.entry block.getHash ≠ none → block.getHash ∉ state.manager.hashIBDBlocks

/-- The message makes the manager ask for a block that is no longer expected, or it brings an expected block
that is refused although the index has it. -/
def Confuses (verifyScript : VerifyScript) (state : Download Node) (message : SyncMessage) : Prop :=
  state.manager.isFinish = false ∧
    match message with
    | .verack => False
    | .headers headers => headers ≠ [] ∧ ∃ hash ∈ state.manager.hashSendingGetData.take 16,
        hash ∉ state.manager.hashIBDBlocks ∧ hash ∉ headers.map BlockHeader.getHash
    | .block block => block.getHash ∈ state.manager.hashIBDBlocks ∧
        (Node.Lingers verifyScript state.chain block ∨
          ((Node.acceptBlock verifyScript state.chain block).result = .ok true ∧
            ¬ (state.manager.isGetHeaders = true ∧ state.manager.hashIBDBlocks.erase block.getHash = ∅) ∧
            state.manager.hashDownloadingBlock.erase block.getHash = ∅ ∧
            ∃ hash ∈ state.manager.hashSendingGetData.take 16, hash ∉ state.manager.hashIBDBlocks.erase block.getHash))

section Ask

variable {Chain : Type} {state : Download Chain}

theorem covers_pushGetDataMessage
    (hExpected : state.manager.hashIBDBlocks ⊆
      state.manager.hashDownloadingBlock ∪ state.manager.hashSendingGetData.toFinset) :
    state.pushGetDataMessage.manager.Covers := by
  rw [manager_pushGetDataMessage]
  constructor
  · intro hash hMem
    have hQueue := hExpected hMem
    rw [← List.take_append_drop 16 state.manager.hashSendingGetData, List.toFinset_append, ← Finset.union_assoc] at hQueue
    exact hQueue
  · intro hMore hNone
    rw [Finset.union_eq_empty, List.toFinset_eq_empty_iff, List.take_eq_nil_iff] at hNone
    simp_all

theorem downloading_pushGetDataMessage_iff
    (hDownloading : state.manager.hashDownloadingBlock ⊆ state.manager.hashIBDBlocks) :
    state.pushGetDataMessage.manager.hashDownloadingBlock ⊆ state.pushGetDataMessage.manager.hashIBDBlocks ↔
      ∀ hash ∈ state.manager.hashSendingGetData.take 16, hash ∈ state.manager.hashIBDBlocks := by
  rw [manager_pushGetDataMessage, Finset.union_subset_iff]
  simp only [hDownloading, true_and]
  constructor
  · intro hSubset hash hMem
    exact hSubset (List.mem_toFinset.mpr hMem)
  · intro hAll hash hMem
    exact hAll hash (List.mem_toFinset.mp hMem)

theorem expected_withBlock (chain : Chain) (hash : Uint256)
    (hExpected : state.manager.hashIBDBlocks ⊆
      state.manager.hashDownloadingBlock ∪ state.manager.hashSendingGetData.toFinset) :
    (state.withBlock chain hash).manager.hashIBDBlocks ⊆
      (state.withBlock chain hash).manager.hashDownloadingBlock ∪
        (state.withBlock chain hash).manager.hashSendingGetData.toFinset := by
  intro other hOther
  obtain ⟨hNe, hMem⟩ := Finset.mem_erase.mp hOther
  rcases Finset.mem_union.mp (hExpected hMem) with hMem | hMem
  · exact Finset.mem_union_left _ (Finset.mem_erase.mpr ⟨hNe, hMem⟩)
  · exact Finset.mem_union_right _ hMem

theorem covers_withHeaders (headers : List BlockHeader) (hCovers : state.manager.Covers) :
    (state.withHeaders headers).manager.Covers := by
  rw [withHeaders]
  apply covers_pushGetDataMessage
  rw [announce_eq]
  dsimp only
  rw [List.toFinset_append, ← Finset.union_assoc]
  exact Finset.union_subset_union_left hCovers.expected

theorem downloading_withHeaders_iff (headers : List BlockHeader)
    (hDownloading : state.manager.hashDownloadingBlock ⊆ state.manager.hashIBDBlocks) :
    (state.withHeaders headers).manager.hashDownloadingBlock ⊆ (state.withHeaders headers).manager.hashIBDBlocks ↔
      ∀ hash ∈ state.manager.hashSendingGetData.take 16,
        hash ∈ state.manager.hashIBDBlocks ∨ hash ∈ headers.map BlockHeader.getHash := by
  rw [withHeaders, downloading_pushGetDataMessage_iff]
  · rw [announce_eq]
    dsimp only
    simp only [Finset.mem_union, List.mem_toFinset, List.take_append, List.mem_append]
    constructor
    · intro hAll hash hMem
      exact hAll hash (.inl hMem)
    · rintro hAll hash (hMem | hMem)
      · exact hAll hash hMem
      · exact .inr (List.mem_of_mem_take hMem)
  · rw [announce_eq]
    exact hDownloading.trans Finset.subset_union_left

end Ask

section Step

variable {verifyScript : VerifyScript} {state state' : Download Node} {message : SyncMessage}

/-- What every message keeps. -/
structure Consistent (state : Download Node) : Prop where
  tree : state.chain.Tree
  covers : state.manager.isFinish = false → state.manager.Covers

theorem tree_of_acceptBlock {node node' : Node} {block : Block} {result : Except Fault Bool} (hTree : node.Tree)
    (hAccept : (Node.access verifyScript).acceptBlock node block = (node', result)) : node'.Tree := by
  have hTree' := hTree.acceptCase (hTree.acceptBlock_cases verifyScript block)
  have hNode : (Node.acceptBlock verifyScript node block).node = node' := congrArg Prod.fst hAccept
  rwa [hNode] at hTree'

theorem Consistent.step (hConsistent : state.Consistent)
    (hStep : state.step (Node.access verifyScript) message = some state') : state'.Consistent := by
  obtain ⟨hTree, hCovers⟩ := hConsistent
  cases step_cases hStep with
  | verack | finishedHeaders | ignored => exact ⟨hTree, hCovers⟩
  | finishedBlock block chain accepted hFinish hAccept => exact ⟨tree_of_acceptBlock hTree hAccept, hCovers⟩
  | firstEmpty => exact ⟨by simpa [finish] using hTree, fun hFinish => by cases hFinish⟩
  | laterEmpty hFinish =>
    have hCovers := hCovers hFinish
    exact ⟨hTree, fun _ => ⟨hCovers.expected, hCovers.asking⟩⟩
  | lastHeaders headers hFinish =>
    have hCovers := covers_withHeaders headers (hCovers hFinish)
    exact ⟨hTree, fun _ => ⟨hCovers.expected, hCovers.asking⟩⟩
  | moreHeaders headers sent hFinish => exact ⟨hTree, fun _ => covers_withHeaders headers (hCovers hFinish)⟩
  | refused block chain hFinish hMem hAccept => exact ⟨tree_of_acceptBlock hTree hAccept, hCovers⟩
  | completed block chain hFinish hMem hAccept =>
    refine ⟨?_, ?_⟩
    · simpa [finish, withBlock] using tree_of_acceptBlock hTree hAccept
    · intro hNot
      simp [finish] at hNot
  | continued block chain hFinish hMem hAccept =>
    have hExpected := expected_withBlock chain block.getHash (hCovers hFinish).expected
    have hTree' := tree_of_acceptBlock hTree hAccept
    split
    case isTrue => exact ⟨hTree', fun _ => covers_pushGetDataMessage hExpected⟩
    case isFalse hSome => exact ⟨hTree', fun _ => ⟨hExpected, fun _ => hSome⟩⟩

theorem Consistent.keepsBooks (hConsistent : state.Consistent)
    (hDownloading : state.manager.isFinish = false → state.manager.hashDownloadingBlock ⊆ state.manager.hashIBDBlocks)
    (hSettled : ∀ block, message = .block block → state.manager.isFinish = false →
      state.chain.entry block.getHash ≠ none → block.getHash ∉ state.manager.hashIBDBlocks) :
    KeepsBooks message state where
  books hFinish := ⟨hConsistent.covers hFinish, hDownloading hFinish⟩
  settled := hSettled

theorem keepsBooks_headers_iff {headers : List BlockHeader} (hConsistent : state.Consistent)
    (hFinish : state.manager.isFinish = false) : KeepsBooks (.headers headers) state ↔
      state.manager.hashDownloadingBlock ⊆ state.manager.hashIBDBlocks := by
  constructor
  · intro hKeeps
    exact (hKeeps.books hFinish).downloading
  · intro hDownloading
    exact hConsistent.keepsBooks (fun _ => hDownloading) (fun _ hEq => by cases hEq)

theorem confuses_headers_iff {headers : List BlockHeader} (hFinish : state.manager.isFinish = false)
    (hSome : headers ≠ []) : ¬ Confuses verifyScript state (.headers headers) ↔
      ∀ hash ∈ state.manager.hashSendingGetData.take 16,
        hash ∈ state.manager.hashIBDBlocks ∨ hash ∈ headers.map BlockHeader.getHash := by
  simp only [Confuses, hFinish, hSome, true_and, ne_eq, not_false_eq_true, not_exists, not_and, Classical.not_not]
  refine forall_congr' fun hash => forall_congr' fun _ => ?_
  rw [Decidable.or_iff_not_imp_left]

theorem not_lingers_of_accepted {node node' : Node} {block : Block} (hTree : node.Tree)
    (hAccept : (Node.access verifyScript).acceptBlock node block = (node', .ok true)) :
    ¬ Node.Lingers verifyScript node block := by
  intro hLingers
  have hRefused := ((hTree.refused_and_indexed_iff verifyScript block).mpr hLingers).1
  cases hRefused.symm.trans (congrArg Prod.snd hAccept)

section Delivered

variable {block : Block} {chain : Node}

theorem keepsBooks_refused_iff (hConsistent : state.Consistent)
    (hConsistent' : { state with chain := chain }.Consistent)
    (hDownloading : state.manager.isFinish = false →
      state.manager.hashDownloadingBlock ⊆ state.manager.hashIBDBlocks)
    (hFinish : state.manager.isFinish = false) (hMem : block.getHash ∈ state.manager.hashIBDBlocks)
    (hAccept : (Node.access verifyScript).acceptBlock state.chain block = (chain, .ok false)) :
    KeepsBooks (.block block) { state with chain := chain } ↔ ¬ Confuses verifyScript state (.block block) := by
  have hNode : (Node.acceptBlock verifyScript state.chain block).node = chain := congrArg Prod.fst hAccept
  have hResult : (Node.acceptBlock verifyScript state.chain block).result = .ok false := congrArg Prod.snd hAccept
  have hLingers := hConsistent.tree.refused_and_indexed_iff verifyScript block
  simp only [hResult, true_and, hNode] at hLingers
  constructor
  · rintro hKeeps ⟨-, -, hLinger | ⟨hTrue, -⟩⟩
    · exact hKeeps.settled block rfl hFinish (hLingers.mpr hLinger) hMem
    · cases hResult.symm.trans hTrue
  · intro hNot
    refine hConsistent'.keepsBooks hDownloading ?_
    intro other hEq _ hEntry
    cases hEq
    exact absurd ⟨hFinish, hMem, .inl (hLingers.mp hEntry)⟩ hNot

/-- After the last block that was asked for, the manager asks for those at the front of the queue. -/
theorem keepsBooks_asking_iff (hConsistent : state.Consistent)
    (hConsistent' : (state.withBlock chain block.getHash).pushGetDataMessage.Consistent)
    (hErase : (state.withBlock chain block.getHash).manager.hashDownloadingBlock ⊆
      (state.withBlock chain block.getHash).manager.hashIBDBlocks)
    (hFinish : state.manager.isFinish = false) (hMem : block.getHash ∈ state.manager.hashIBDBlocks)
    (hAccept : (Node.access verifyScript).acceptBlock state.chain block = (chain, .ok true))
    (hLast : ¬ (state.manager.isGetHeaders = true ∧ state.manager.hashIBDBlocks.erase block.getHash = ∅))
    (hEmpty : state.manager.hashDownloadingBlock.erase block.getHash = ∅) :
    KeepsBooks (.block block) (state.withBlock chain block.getHash).pushGetDataMessage ↔
      ¬ Confuses verifyScript state (.block block) := by
  have hResult : (Node.acceptBlock verifyScript state.chain block).result = .ok true := congrArg Prod.snd hAccept
  have hPush := downloading_pushGetDataMessage_iff hErase
  have hFinish' : (state.withBlock chain block.getHash).pushGetDataMessage.manager.isFinish = false := by
    rw [manager_pushGetDataMessage]
    exact hFinish
  constructor
  · rintro hKeeps ⟨-, -, hLinger | ⟨-, -, -, hash, hFront, hNot⟩⟩
    · exact not_lingers_of_accepted hConsistent.tree hAccept hLinger
    · exact hNot (hPush.mp (hKeeps.books hFinish').downloading hash hFront)
  · intro hNot
    refine hConsistent'.keepsBooks (fun _ => hPush.mpr ?_) ?_
    · intro hash hFront
      apply Decidable.byContradiction
      intro hStale
      exact hNot ⟨hFinish, hMem, .inr ⟨hResult, hLast, hEmpty, hash, hFront, hStale⟩⟩
    · intro other hEq _ _
      cases hEq
      rw [manager_pushGetDataMessage]
      exact Finset.notMem_erase _ _

end Delivered

theorem keepsBooks_iff (hConsistent : state.Consistent)
    (hDownloading : state.manager.isFinish = false →
      state.manager.hashDownloadingBlock ⊆ state.manager.hashIBDBlocks)
    (hStep : state.step (Node.access verifyScript) message = some state') :
    KeepsBooks message state' ↔ ¬ Confuses verifyScript state message := by
  have hConsistent' := hConsistent.step hStep
  cases step_cases hStep with
  | verack =>
    refine iff_of_true (hConsistent'.keepsBooks hDownloading (fun _ hEq => by cases hEq)) ?_
    rintro ⟨-, hFalse⟩
    exact hFalse
  | finishedHeaders headers hFinish =>
    refine iff_of_true (hConsistent'.keepsBooks hDownloading (fun _ hEq => by cases hEq)) ?_
    rintro ⟨hNot, -⟩
    cases hFinish.symm.trans hNot
  | finishedBlock block chain accepted hFinish hAccept =>
    refine iff_of_true (hConsistent'.keepsBooks hDownloading fun _ _ hNot => ?_) ?_
    · cases hFinish.symm.trans hNot
    · rintro ⟨hNot, -⟩
      cases hFinish.symm.trans hNot
  | firstEmpty hFinish hFirst =>
    refine iff_of_true (hConsistent'.keepsBooks (fun hNot => by cases hNot) fun _ hEq => by cases hEq) ?_
    rintro ⟨-, hSome, -⟩
    exact hSome rfl
  | laterEmpty hFinish hFirst =>
    refine iff_of_true (hConsistent'.keepsBooks hDownloading fun _ hEq => by cases hEq) ?_
    rintro ⟨-, hSome, -⟩
    exact hSome rfl
  | lastHeaders headers hFinish hSome =>
    rw [confuses_headers_iff hFinish hSome, ← downloading_withHeaders_iff headers (hDownloading hFinish),
      keepsBooks_headers_iff hConsistent' (by simpa using hFinish)]
  | moreHeaders headers sent hFinish hSome =>
    rw [confuses_headers_iff hFinish hSome, ← downloading_withHeaders_iff headers (hDownloading hFinish),
      keepsBooks_headers_iff hConsistent' (by simpa using hFinish)]
  | ignored block hFinish hNot =>
    refine iff_of_true (hConsistent'.keepsBooks hDownloading ?_) ?_
    · intro other hEq _ _
      cases hEq
      exact hNot
    · rintro ⟨-, hMem, -⟩
      exact hNot hMem
  | refused block chain hFinish hMem hAccept =>
    exact keepsBooks_refused_iff hConsistent hConsistent' hDownloading hFinish hMem hAccept
  | completed block chain hFinish hMem hAccept hLast =>
    refine iff_of_true (hConsistent'.keepsBooks ?_ ?_) ?_
    · intro hNot
      simp [finish] at hNot
    · intro _ _ hNot
      simp [finish] at hNot
    · rintro ⟨-, -, hLinger | ⟨-, hNot, -⟩⟩
      · exact not_lingers_of_accepted hConsistent.tree hAccept hLinger
      · exact hNot hLast
  | continued block chain hFinish hMem hAccept hLast =>
    have hErase : (state.withBlock chain block.getHash).manager.hashDownloadingBlock ⊆
        (state.withBlock chain block.getHash).manager.hashIBDBlocks :=
      Finset.erase_subset_erase _ (hDownloading hFinish)
    -- only a new request can bring in a hash that is not expected
    by_cases hEmpty : state.manager.hashDownloadingBlock.erase block.getHash = ∅
    · rw [if_pos hEmpty] at hConsistent' ⊢
      exact keepsBooks_asking_iff hConsistent hConsistent' hErase hFinish hMem hAccept hLast hEmpty
    · rw [if_neg hEmpty] at hConsistent' ⊢
      refine iff_of_true (hConsistent'.keepsBooks (fun _ => hErase) ?_) ?_
      · intro other hEq _ _
        cases hEq
        exact Finset.notMem_erase _ _
      · rintro ⟨-, -, hLinger | ⟨-, -, hNone, -⟩⟩
        · exact not_lingers_of_accepted hConsistent.tree hAccept hLinger
        · exact hEmpty hNone

end Step

/-- In a run without a confusing message the containers agree until the end of the download, and a message
keeps them so just if it does not confuse them. -/
theorem books_and_keepsBooks_iff {verifyScript : VerifyScript} {node : Node} (hReach : Node.Reachable verifyScript node)
    {state : Download Node}
    (hRun : Reaches (step (Node.access verifyScript)) (fun state message => ¬ Confuses verifyScript state message)
      (start node) state) :
    (state.manager.isFinish = false → state.manager.Books) ∧
      ∀ message state', state.step (Node.access verifyScript) message = some state' →
        (KeepsBooks message state' ↔ ¬ Confuses verifyScript state message) := by
  have hStart : (start node).manager.Books :=
    ⟨⟨Finset.empty_subset _, fun hSome => absurd rfl hSome⟩, Finset.empty_subset _⟩
  refine hRun.exact Consistent (fun state => state.manager.isFinish = false → state.manager.Books)
    (fun _ message state' => KeepsBooks message state') ⟨hReach.tree, fun _ => hStart.toCovers⟩ (fun _ => hStart) ?_ ?_ ?_
  · intro state message state' hConsistent hStep
    exact hConsistent.step hStep
  · intro state message state' hKeeps
    exact hKeeps.books
  · intro state message state' hConsistent hBooks hStep
    exact keepsBooks_iff hConsistent (fun hFinish => (hBooks hFinish).downloading) hStep

/-- The state in which two blocks have been announced. -/
def announced : Download Node :=
  let state := (start Node.initial).withHeaders [(rivalBlock 1).toBlockHeader, (rivalBlock 2).toBlockHeader]
  { state with manager := { state.manager with isGetHeaders := true } }

/-- The first of the two announced blocks arrives. -/
theorem books_and_keepsBooks_iff_delivered : ∃ state : Download Node,
    Reaches (step (Node.access anyScript)) (fun state message => ¬ Confuses anyScript state message)
        (start Node.initial) state ∧
      state.manager.isFinish = false ∧ state.chain.entry (rivalBlock 1).getHash ≠ none ∧
      (rivalBlock 2).getHash ∈ state.manager.hashIBDBlocks ∧ state.manager.Books ∧
      ∀ message state', state.step (Node.access anyScript) message = some state' →
        (KeepsBooks message state' ↔ ¬ Confuses anyScript state message) := by
  have hHeaders : (start Node.initial).step (Node.access anyScript)
      (.headers [(rivalBlock 1).toBlockHeader, (rivalBlock 2).toBlockHeader]) = some announced := rfl
  have hFirst : ¬ Confuses anyScript (start Node.initial)
      (.headers [(rivalBlock 1).toBlockHeader, (rivalBlock 2).toBlockHeader]) := by
    rintro ⟨-, -, hash, hFront, -⟩
    cases hFront
  have hSecond : ¬ Confuses anyScript announced (.block (rivalBlock 1)) := by
    have hAccept : (Node.acceptBlock anyScript Node.initial (rivalBlock 1)).result = .ok true := by decide +kernel
    have hAsked : (rivalBlock 2).getHash ∈ announced.manager.hashDownloadingBlock.erase (rivalBlock 1).getHash := by
      decide +kernel
    rintro ⟨-, -, hLinger | ⟨-, -, hNone, -⟩⟩
    · exact not_lingers_of_accepted Node.initial_tree (Prod.ext rfl hAccept) hLinger
    · rw [hNone] at hAsked
      exact absurd hAsked (Finset.notMem_empty _)
  have hEvaluated : (announced.step (Node.access anyScript) (.block (rivalBlock 1))).any (fun state =>
      !state.manager.isFinish && (state.chain.entry (rivalBlock 1).getHash).isSome &&
        decide ((rivalBlock 2).getHash ∈ state.manager.hashIBDBlocks)) = true := by
    decide +kernel
  obtain ⟨state, hBlock, hState⟩ := (Option.any_eq_true ..).mp hEvaluated
  simp only [Bool.and_eq_true, Bool.not_eq_true', decide_eq_true_eq] at hState
  obtain ⟨⟨hFinish, hEntry⟩, hExpected⟩ := hState
  have hRun : Reaches (step (Node.access anyScript)) (fun state message => ¬ Confuses anyScript state message)
      (start Node.initial) state := (Reaches.next .refl hFirst hHeaders).next hSecond hBlock
  obtain ⟨hBooks, hKeeps⟩ := books_and_keepsBooks_iff .refl hRun
  exact ⟨state, hRun, hFinish, Option.isSome_iff_ne_none.mp hEntry, hExpected, hBooks hFinish, hKeeps⟩

section Confused

/-- The headers of two blocks are announced again after the first has arrived. -/
def overlapping : List SyncMessage :=
  [.headers [(rivalBlock 1).toBlockHeader, (rivalBlock 2).toBlockHeader], .block (rivalBlock 1),
    .headers [(rivalBlock 1).toBlockHeader, (rivalBlock 2).toBlockHeader]]

/-- The last block of a batch arrives before it is asked for. -/
def unasked : List SyncMessage :=
  [.headers (List.replicate 16 (rivalBlock 2).toBlockHeader ++ [(rivalBlock 1).toBlockHeader]),
    .block (rivalBlock 1), .headers [(rivalBlock 2).toBlockHeader]]

/-- A block that is known but expected again is never crossed off, and a block that is not expected any more
is asked for. -/
theorem exists_books_confused : ∃ (verifyScript : VerifyScript) (state state' other : Download Node) (block : Block),
    Reaches (step (Node.access verifyScript)) (fun _ _ => True) (start Node.initial) state ∧
      state.step (Node.access verifyScript) (.block block) = some state' ∧ state'.manager.isFinish = false ∧
      state'.chain.entry block.getHash ≠ none ∧ block.getHash ∈ state'.manager.hashIBDBlocks ∧
    Reaches (step (Node.access verifyScript)) (fun _ _ => True) (start Node.initial) other ∧
      other.manager.isFinish = false ∧ ¬ other.manager.hashDownloadingBlock ⊆ other.manager.hashIBDBlocks := by
  have hEvaluated :
      (overlapping.foldlM (step (Node.access anyScript)) (start Node.initial)).any (fun state =>
        (state.step (Node.access anyScript) (.block (rivalBlock 1))).any fun state =>
          !state.manager.isFinish && (state.chain.entry (rivalBlock 1).getHash).isSome &&
            decide ((rivalBlock 1).getHash ∈ state.manager.hashIBDBlocks)) = true ∧
      (unasked.foldlM (step (Node.access anyScript)) (start Node.initial)).any (fun state =>
        !state.manager.isFinish && decide ((rivalBlock 1).getHash ∈ state.manager.hashDownloadingBlock) &&
          decide ((rivalBlock 1).getHash ∉ state.manager.hashIBDBlocks)) = true := by
    decide +kernel
  obtain ⟨hOverlapping, hUnasked⟩ := hEvaluated
  obtain ⟨state, hReplay, hOverlapping⟩ := (Option.any_eq_true ..).mp hOverlapping
  obtain ⟨state', hStep, hKnown⟩ := (Option.any_eq_true ..).mp hOverlapping
  obtain ⟨other, hOther, hStale⟩ := (Option.any_eq_true ..).mp hUnasked
  simp only [Bool.and_eq_true, Bool.not_eq_true', decide_eq_true_eq] at hKnown hStale
  obtain ⟨⟨hFinish, hEntry⟩, hMem⟩ := hKnown
  obtain ⟨⟨hOtherFinish, hAsked⟩, hNot⟩ := hStale
  refine ⟨anyScript, state, state', other, rivalBlock 1, Reaches.foldlM _ .refl hReplay, hStep, hFinish, ?_, hMem,
    Reaches.foldlM _ .refl hOther, hOtherFinish, ?_⟩
  · exact Option.isSome_iff_ne_none.mp hEntry
  · intro hSubset
    exact hNot (hSubset hAsked)

end Confused

end Download

end BitcoinGpuMiner
