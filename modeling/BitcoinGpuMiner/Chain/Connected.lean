import BitcoinGpuMiner.Chain.NullPointers
import BitcoinGpuMiner.Chain.Orphans

/-! # Orphans whose parent has arrived

A call that stores a block looks for an orphan under the block's hash and calls itself on it.
The mutex it holds is not recursive, so that call never returns. The side branch returns before
the search, and there the orphan is left in the pool. Both are avoided only where no orphan
waits for a block that is stored.
-/

namespace BitcoinGpuMiner

open Foundation

set_option autoImplicit false

namespace Node

/-- No block of the pool has its parent in the index. -/
def Connected (node : Node) : Prop := ∀ entry ∈ node.orphanBlocks, node.entry entry.2.hashPrevBlock = none

/-- The call returns and leaves no orphan whose parent is known. -/
structure Connects (outcome : Outcome) : Prop where
  returns : ∃ result, outcome.result = .ok result
  connected : outcome.node.Connected

/-- The block passes what its branch checks before it is stored. -/
structure Storable (verifyScript : VerifyScript) (node : Node) (block : Block) (prev active : BlockIndex) : Prop where
  ok : blockOk block = true
  notNull : block.hashPrevBlock ≠ Uint256.null
  valid : block.hashPrevBlock = active.hash → VtxValid verifyScript node.ledger (prev.height + 1) block.vtx

/-- No orphan waits for the block if it is stored, and no null pointer is in the way. -/
structure Uneventful (verifyScript : VerifyScript) (node : Node) (block : Block) : Prop where
  safe : ∀ prev active, node.Candidate block prev active → ¬ node.Dereferences block prev active
  alone : ∀ prev active, node.Candidate block prev active → Storable verifyScript node block prev active →
    node.waiting block.getHash = false

section Call

variable {verifyScript : VerifyScript} {node : Node} {block : Block} {prev active : BlockIndex}

theorem connects_same {result : Bool} (hConnected : node.Connected) : Connects ⟨node, .ok result⟩ :=
  ⟨⟨result, rfl⟩, hConnected⟩

theorem connects_orphan (hConnected : node.Connected) (hParent : node.entry block.hashPrevBlock = none) :
    Connects (acceptOrphan node block) := by
  rw [acceptOrphan]
  split
  · exact connects_same hConnected
  · refine ⟨⟨true, rfl⟩, ?_⟩
    intro entry hMem
    rw [insertOrphan_eq, mem_insertBehind] at hMem
    rcases hMem with rfl | hMem
    · exact hParent
    · exact hConnected entry hMem

/-- Once the block is in the index, only the orphans under its hash are in the way. -/
theorem Tree.connected_stored_iff (hTree : node.Tree) (hKept : node.OrphansKept) (hConnected : node.Connected)
    (hCandidate : node.Candidate block prev active) {node' : Node} (tip : Bool)
    (hIndex : node'.blockIndex = (node.withBlock block prev tip).blockIndex)
    (hPool : node'.orphanBlocks = node.orphanBlocks) : node'.Connected ↔ node.waiting block.getHash = false := by
  have hEntry : ∀ h, node'.entry h = if block.getHash = h then some (newIndex block prev) else node.entry h := by
    intro h
    rw [← hTree.entry_withBlock hCandidate.parent tip h, entry, entry, hIndex]
  rw [Bool.eq_false_iff, Ne, waiting_iff]
  constructor
  · rintro hAll ⟨waiter, hMem, hKey⟩
    have hNone := hAll waiter (hPool ▸ hMem)
    rw [← hKept.keyed waiter hMem, hKey, hEntry, if_pos rfl] at hNone
    cases hNone
  · intro hNobody waiter hMem
    rw [hPool] at hMem
    rw [hEntry, if_neg]
    · exact hConnected waiter hMem
    · intro hEq
      exact hNobody ⟨waiter, hMem, (hKept.keyed waiter hMem).trans hEq.symm⟩

theorem connects_endResult_iff {node' : Node} (hStored : node'.Connected ↔ node.waiting block.getHash = false) :
    Connects ⟨node', node.endResult block⟩ ↔ node.waiting block.getHash = false := by
  constructor
  · intro hConnects
    exact hStored.mp hConnects.connected
  · intro hNobody
    refine ⟨⟨true, ?_⟩, hStored.mpr hNobody⟩
    rw [endResult, hNobody]
    rfl

theorem connects_returned_iff {node' : Node} {result : Bool}
    (hStored : node'.Connected ↔ node.waiting block.getHash = false) :
    Connects ⟨node', .ok result⟩ ↔ node.waiting block.getHash = false := by
  constructor
  · intro hConnects
    exact hStored.mp hConnects.connected
  · intro hNobody
    exact connects_same (hStored.mpr hNobody)

theorem not_connects_error {node' : Node} {fault : Fault} : ¬ Connects ⟨node', .error fault⟩ := by
  rintro ⟨⟨result, hResult⟩, -⟩
  cases hResult

theorem Storable.alone_iff (hStorable : Storable verifyScript node block prev active) {result : Except Fault Bool}
    (hSafe : result ≠ .error .nullDereference) : node.waiting block.getHash = false ↔
      result ≠ .error .nullDereference ∧
        (Storable verifyScript node block prev active → node.waiting block.getHash = false) := by
  constructor
  · intro hNobody
    exact ⟨hSafe, fun _ => hNobody⟩
  · rintro ⟨-, hAlone⟩
    exact hAlone hStorable

theorem AcceptCase.connects_iff (hTree : node.Tree) (hKept : node.OrphansKept) (hConnected : node.Connected)
    {outcome : Outcome} (hCase : AcceptCase verifyScript node block outcome) :
    Connects outcome ↔ outcome.result ≠ .error .nullDereference ∧
      ∀ prev active, node.Candidate block prev active → Storable verifyScript node block prev active →
        node.waiting block.getHash = false := by
  cases hCase with
  | known hKnown =>
    exact iff_of_true (connects_same hConnected) ⟨ok_ne_nullDereference _, forall_candidate_of_known hKnown⟩
  | orphan hNew hParent =>
    obtain ⟨result, hResult⟩ := acceptOrphan_returns node block
    refine iff_of_true (connects_orphan hConnected hParent) ⟨?_, Tree.forall_candidate_of_orphan hParent⟩
    rw [hResult]
    exact ok_ne_nullDereference _
  | @extended prev active memPool hCandidate hTop hOk hValid hNull =>
    rw [forall_candidate_iff hCandidate]
    rw [hTree.prev_hash hCandidate] at hNull
    have hStorable : Storable verifyScript node block prev active := ⟨hOk, hNull, fun _ => hValid⟩
    refine (connects_endResult_iff ?_).trans (hStorable.alone_iff (endResult_ne_nullDereference node block))
    exact hTree.connected_stored_iff hKept hConnected hCandidate true rfl rfl
  | notExtended hCandidate hTop hNot =>
    rw [forall_candidate_iff hCandidate]
    refine iff_of_true (connects_same hConnected) ⟨ok_ne_nullDereference _, ?_⟩
    intro hStorable
    rw [hTree.prev_hash hCandidate] at hNot
    exact absurd ⟨hStorable.ok, hStorable.valid hTop, hStorable.notNull⟩ hNot
  | @branched prev active hCandidate hBeside hOk hNull =>
    rw [forall_candidate_iff hCandidate]
    rw [hTree.prev_hash hCandidate] at hNull
    have hStorable : Storable verifyScript node block prev active :=
      ⟨hOk, hNull, fun hTop => absurd hTop hBeside.other⟩
    refine (connects_returned_iff ?_).trans (hStorable.alone_iff (ok_ne_nullDereference _))
    exact hTree.connected_stored_iff hKept hConnected hCandidate true rfl rfl
  | notBranched hCandidate hBeside hNot =>
    rw [forall_candidate_iff hCandidate]
    refine iff_of_true (connects_same hConnected) ⟨ok_ne_nullDereference _, ?_⟩
    intro hStorable
    rw [hTree.prev_hash hCandidate] at hNot
    exact absurd ⟨hStorable.ok, hStorable.notNull⟩ hNot
  | crashed => exact iff_of_false not_connects_error fun hSafe => hSafe.1 rfl
  | notOvertaken hCandidate hRival hNull hNot =>
    rw [forall_candidate_iff hCandidate]
    refine iff_of_true (connects_same hConnected) ⟨ok_ne_nullDereference _, ?_⟩
    intro hStorable
    cases hNot.symm.trans hStorable.ok
  | @savedOnly prev active _ hCandidate hRival hNull hHeight hOk hCheck =>
    rw [forall_candidate_iff hCandidate]
    have hStorable : Storable verifyScript node block prev active :=
      ⟨hOk, hNull, fun hTop => absurd hTop hRival.other⟩
    rcases hCheck with ⟨fault, hError, rfl⟩ | ⟨-, rfl⟩
    · obtain ⟨rfl, -⟩ := (overlayCheck_eq_error_iff verifyScript node hOk fault).mp hError
      exact iff_of_false not_connects_error fun hSafe => hSafe.1 rfl
    · refine (connects_returned_iff ?_).trans (hStorable.alone_iff (ok_ne_nullDereference _))
      exact hTree.connected_stored_iff hKept hConnected hCandidate false rfl rfl
  | @reorganised prev active _ memPool hCandidate hRival hNull hHeight hOk =>
    rw [forall_candidate_iff hCandidate]
    have hStorable : Storable verifyScript node block prev active :=
      ⟨hOk, hNull, fun hTop => absurd hTop hRival.other⟩
    refine (connects_endResult_iff ?_).trans (hStorable.alone_iff (endResult_ne_nullDereference node block))
    exact hTree.connected_stored_iff hKept hConnected hCandidate false rfl rfl

theorem Tree.connects_iff_uneventful (hTree : node.Tree) (hKept : node.OrphansKept) (hConnected : node.Connected) :
    Connects (acceptBlock verifyScript node block) ↔ Uneventful verifyScript node block := by
  have hCase := hTree.acceptBlock_cases verifyScript block
  rw [hCase.connects_iff hTree hKept hConnected, hCase.ne_nullDereference_iff]
  constructor
  · rintro ⟨hSafe, hAlone⟩
    exact ⟨hSafe, hAlone⟩
  · rintro ⟨hSafe, hAlone⟩
    exact ⟨hSafe, hAlone⟩

end Call

theorem Run.connected {verifyScript : VerifyScript} {node : Node}
    (hRun : Run verifyScript (Uneventful verifyScript) node) : node.Connected := by
  have hInvariant : node.OrphansKept ∧ node.Connected := by
    refine (hRun.invariant (motive := fun node => node.OrphansKept ∧ node.Connected) ?_ ?_).2
    · refine ⟨initial_orphansKept, ?_⟩
      intro entry hMem
      rw [initial_orphanBlocks] at hMem
      exact absurd hMem List.not_mem_nil
    · rintro node block node' result hTree ⟨hKept, hConnected⟩ hAllowed hAccept
      have hKept' := (hTree.acceptBlock_cases verifyScript block).orphansKept hKept
      have hConnects := (hTree.connects_iff_uneventful hKept hConnected).mpr hAllowed
      rw [hAccept] at hKept' hConnects
      exact ⟨hKept', hConnects.connected⟩
  exact hInvariant.2

/-- In every run of uneventful calls no orphan has a known parent, and the uneventful calls are
exactly those that return and leave it so. -/
theorem connected_and_connects_iff {verifyScript : VerifyScript} {node : Node}
    (hRun : Run verifyScript (Uneventful verifyScript) node) : node.Connected ∧
      ∀ block, Connects (acceptBlock verifyScript node block) ↔ Uneventful verifyScript node block := by
  refine ⟨hRun.connected, ?_⟩
  intro block
  exact hRun.tree.connects_iff_uneventful hRun.orphansKept hRun.connected

/-- The state in which a child has arrived before its parent. -/
def expectant : Node := acceptAll anyScript initial [secondRival]

theorem uneventful_secondRival : Uneventful anyScript initial secondRival := by
  have hParent : initial.entry secondRival.hashPrevBlock = none := by decide +kernel
  exact ⟨Tree.forall_candidate_of_orphan hParent, Tree.forall_candidate_of_orphan hParent⟩

theorem connected_and_connects_expectant : expectant.Connected ∧
    ∀ block, Connects (acceptBlock anyScript expectant block) ↔ Uneventful anyScript expectant block := by
  apply connected_and_connects_iff
  apply Relation.ReflTransGen.single
  exact ⟨secondRival, uneventful_secondRival, step_of_isOk (by decide +kernel)⟩

/-- The parent extends the active chain and the call does not return; or it joins a side branch,
and the child stays in the pool. -/
theorem exists_orphan_not_connected : ∃ (verifyScript : VerifyScript) (node node' : Node) (parent child : Block),
    Reachable verifyScript node ∧ Reachable verifyScript node' ∧
      blockOk parent = true ∧ blockOk child = true ∧ child.hashPrevBlock = parent.getHash ∧
      (acceptBlock verifyScript node parent).result = .error .deadlock ∧
      (acceptBlock verifyScript node' parent).result = .ok true ∧
      ((acceptBlock verifyScript node' parent).node.orphanBlocks.map fun entry => entry.2.getHash) = [child.getHash] ∧
      (acceptBlock verifyScript node' parent).node.entry parent.getHash ≠ none := by
  have hEvaluated : (returnsAll anyScript initial [secondRival] = true ∧
      returnsAll anyScript initial [rivalBlock 1, secondRival] = true) ∧ blockOk (rivalBlock 2) = true ∧
      blockOk secondRival = true ∧ secondRival.hashPrevBlock = (rivalBlock 2).getHash ∧
      (acceptBlock anyScript expectant (rivalBlock 2)).result = .error .deadlock ∧
      (acceptBlock anyScript (acceptAll anyScript initial [rivalBlock 1, secondRival]) (rivalBlock 2)).result =
        .ok true ∧
      ((acceptBlock anyScript (acceptAll anyScript initial [rivalBlock 1, secondRival]) (rivalBlock 2)).node.orphanBlocks.map
        fun entry => entry.2.getHash) = [secondRival.getHash] ∧
      (acceptBlock anyScript (acceptAll anyScript initial [rivalBlock 1, secondRival]) (rivalBlock 2)).node.entry
        (rivalBlock 2).getHash ≠ none := by
    decide +kernel
  obtain ⟨⟨hFirst, hSecond⟩, hRest⟩ := hEvaluated
  exact ⟨anyScript, expectant, acceptAll anyScript initial [rivalBlock 1, secondRival], rivalBlock 2, secondRival,
    Reachable.acceptAll _ .refl hFirst, Reachable.acceptAll _ .refl hSecond, hRest⟩

end Node

end BitcoinGpuMiner
