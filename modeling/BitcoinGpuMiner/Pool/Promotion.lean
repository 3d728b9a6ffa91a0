import BitcoinGpuMiner.Pool.Invariants

/-! # What becomes of the orphans

`_miningPool` holds the orphans that `AcceptTx` puts there and the transactions that `GetNewBlockTxs` selects, and
does not say which is which. `ProcOrphanTx` treats them alike. It never looks into `_orphanPool`.
-/

namespace BitcoinGpuMiner

open Foundation

set_option autoImplicit false

/-- The entry is an orphan: in `_orphanPool`, or in `_miningPool` without having been selected. -/
def TXMemPool.Waits (memPool : TXMemPool) (selected : Uint256 → Prop) (hash : Uint256) (tx : NetMessageTransaction) :
    Prop :=
  memPool.orphanPool[hash]? = some tx ∨ (memPool.miningPool[hash]? = some tx ∧ ¬ selected hash)

namespace Node

/-- The answer of `CheckTransaction` to the call in `AcceptTx`. -/
def Passes (verifyScript : VerifyScript) (node : Node) (tx : NetMessageTransaction) : Prop :=
  ∃ tip answer, node.tips.getActiveTip = some tip ∧
    checkTransaction verifyScript node.ledger
      (ScriptValidation.getBlockScriptFlags (BlockIndex.make (tip.height + 1) Uint256.null Uint256.null))
      (tip.height + 1) none tx ⟨0, 0⟩ = .ok (some answer)

/-- Not in the chain, although all its parents are, and valid. -/
def Promotable (verifyScript : VerifyScript) (node : Node) (tx : NetMessageTransaction) : Prop :=
  node.ledger.txIndex.contains tx.getHash = false ∧ node.ledger.allInputsFound tx = true ∧ node.Passes verifyScript tx

/-- What `ProcOrphanTx` is for. -/
structure Promotes (verifyScript : VerifyScript) (node : Node) (selected : Uint256 → Prop) (after : TXMemPool) :
    Prop where
  promoted : ∀ hash tx, node.memPool.Waits selected hash tx → node.Promotable verifyScript tx →
    after.pool[tx.getHash]? = some tx
  waiting : ∀ hash tx, node.memPool.Waits selected hash tx → node.ledger.txIndex.contains tx.getHash = false →
    node.ledger.allInputsFound tx = false → after.Waits selected hash tx
  dropped : ∀ hash tx, node.memPool.Waits selected hash tx → node.ledger.txIndex.contains tx.getHash = true →
    ¬ after.Waits selected hash tx
  unaffected : ∀ hash, selected hash → after.miningPool[hash]? = node.memPool.miningPool[hash]? ∧
    after.pool[hash]? = node.memPool.pool[hash]?

/-- There is nothing for `ProcOrphanTx` to do, and nothing to get wrong. -/
structure Idle (verifyScript : VerifyScript) (node : Node) (selected : Uint256 → Prop) : Prop where
  promoted : ∀ hash tx, node.memPool.Waits selected hash tx → node.Promotable verifyScript tx →
    node.memPool.pool[tx.getHash]? = some tx
  orphanPool : ∀ (hash : Uint256) (tx : NetMessageTransaction), node.memPool.orphanPool[hash]? = some tx →
    node.ledger.txIndex.contains tx.getHash = false
  selected : ∀ (hash : Uint256) (tx : NetMessageTransaction), node.memPool.miningPool[hash]? = some tx →
    selected hash → node.ledger.erases tx = false

section Erased

variable {verifyScript : VerifyScript} {node : Node} {selected : Uint256 → Prop} {miningPool : HashMap NetMessageTransaction}

/-- Only `Idle.selected` is about `_miningPool`: an orphan there that has no parent missing is erased either way. -/
theorem promotes_erased_iff
    (hLookup : ∀ (hash : Uint256) (tx : NetMessageTransaction), miningPool[hash]? = some tx ↔
      node.memPool.miningPool[hash]? = some tx ∧ node.ledger.erases tx = false) :
    node.Promotes verifyScript selected { node.memPool with miningPool := miningPool } ↔
      node.Idle verifyScript selected := by
  constructor
  · intro hPromotes
    refine ⟨hPromotes.promoted, ?_, ?_⟩
    · intro hash tx hOrphan
      by_contra hIndexed
      exact hPromotes.dropped hash tx (.inl hOrphan) (Bool.eq_true_of_not_eq_false hIndexed) (.inl hOrphan)
    · intro hash tx hMining hSelected
      have hSame := (hPromotes.unaffected hash hSelected).1
      rw [hMining] at hSame
      exact ((hLookup hash tx).mp hSame).2
  · intro hIdle
    refine ⟨hIdle.promoted, ?_, ?_, ?_⟩
    · intro hash tx hWaits hNew hMissing
      refine hWaits.imp_right fun hMining => ⟨(hLookup hash tx).mpr ⟨hMining.1, ?_⟩, hMining.2⟩
      rw [Ledger.erases, hNew, hMissing]
      rfl
    · intro hash tx _ hIndexed hStill
      cases hStill with
      | inl hOrphan => cases hIndexed.symm.trans (hIdle.orphanPool hash tx hOrphan)
      | inr hMining =>
        have hKept := ((hLookup hash tx).mp hMining.1).2
        rw [Ledger.erases, hIndexed, Bool.true_or] at hKept
        cases hKept
    · intro hash hSelected
      refine ⟨?_, rfl⟩
      apply Option.ext
      intro tx
      rw [hLookup, and_iff_left_iff_imp]
      exact fun hMining => hIdle.selected hash tx hMining hSelected

end Erased

/-- `ProcOrphanTx` does what it is for only when there is nothing to do. -/
theorem promotes_iff_idle (verifyScript : VerifyScript) {node : Node} (hKeyed : node.memPool.Keyed)
    (selected : Uint256 → Prop) :
    (∃ after, node.procOrphanTx verifyScript = .ok after ∧ node.Promotes verifyScript selected after) ↔
      node.Idle verifyScript selected := by
  obtain ⟨miningPool, hOk, hLookup⟩ := procOrphanTx_spec verifyScript hKeyed
  rw [← promotes_erased_iff hLookup, hOk]
  simp only [Except.ok.injEq, exists_eq_left']

theorem procOrphanTx_erased (verifyScript : VerifyScript) {node : Node} (hKeyed : node.memPool.Keyed)
    {tx : NetMessageTransaction} (hErases : node.ledger.erases tx = true)
    (hMining : node.memPool.miningPool[tx.getHash]? = some tx) : ∃ after,
      node.procOrphanTx verifyScript = .ok after ∧ after.miningPool[tx.getHash]? = none ∧
        after.pool = node.memPool.pool ∧ after.orphanPool = node.memPool.orphanPool := by
  obtain ⟨miningPool, hOk, hLookup⟩ := procOrphanTx_spec verifyScript hKeyed
  refine ⟨_, hOk, ?_, rfl, rfl⟩
  rw [Option.eq_none_iff_forall_ne_some]
  intro other hOther
  obtain ⟨hHeld, hKept⟩ := (hLookup _ _).mp hOther
  cases hMining.symm.trans hHeld
  cases hErases.symm.trans hKept

end Node

namespace PoolState.Sample

theorem waiting_keyed : waiting.node.memPool.Keyed := ⟨KeyedBy.empty, KeyedBy.empty.insert rfl⟩

theorem waiting_miningPool : waiting.node.memPool.miningPool[spend.getHash]? = some spend := lookup_insert_self ..

/-- While its parent is missing, the orphan waits. -/
theorem promotes_iff_idle_waiting : waiting.node.memPool.Waits (fun _ => False) spend.getHash spend ∧
    ((∃ after, waiting.node.procOrphanTx anyScript = .ok after ∧
      waiting.node.Promotes anyScript (fun _ => False) after) ↔ waiting.node.Idle anyScript fun _ => False) :=
  ⟨.inr ⟨waiting_miningPool, not_false⟩, Node.promotes_iff_idle anyScript waiting_keyed _⟩

/-- The parent of the waiting orphan has arrived. -/
def found : PoolState := { waiting with node := { funded with memPool := waiting.node.memPool } }

theorem run_found : Run anyScript (fun _ _ => True) found := by
  refine (run_waiting trivial).step (.chain funded) ?_ trivial rfl
  intro hash hContains
  simp [waiting, Node.empty, Ledger.empty] at hContains

/-- The template has taken the valid transaction. -/
def mined : PoolState := pooled.withPool (getNewBlockTxs pooled.node.ledger pooled.node.memPool).memPool

theorem run_pooled : Run anyScript (fun _ _ => True) pooled :=
  (Run.nil funded).step (.acceptTx spend) trivial trivial apply_acceptTx_funded

theorem mined_keyed : mined.node.memPool.Keyed := getNewBlockTxs_keyed _ ⟨KeyedBy.empty.insert rfl, KeyedBy.empty⟩

theorem spend_evaluated : funded.ledger.txIndex.contains spend.getHash = false ∧
    spend ∈ (getNewBlockTxs pooled.node.ledger pooled.node.memPool).vtx ∧
    mined.node.memPool.miningPool[spend.getHash]? = some spend := by
  decide +kernel

theorem found_promotable : found.node.Promotable anyScript spend := by
  have hTip : found.node.tips.getActiveTip = some (BlockIndex.make 1 (Uint256.ofNat 2) Uint256.null) := by decide
  exact ⟨spend_evaluated.1, by decide, BlockIndex.make 1 (Uint256.ofNat 2) Uint256.null, ⟨10, 1⟩, hTip, rfl⟩

theorem funded_erases : funded.ledger.erases spend = true := by
  have hFound : funded.ledger.allInputsFound spend = true := by decide
  exact Bool.or_eq_true_iff.mpr (.inr hFound)

theorem found_lost : ∃ after, found.node.procOrphanTx anyScript = .ok after ∧ ¬ after.Holds spend := by
  have hKeyed : found.node.memPool.Keyed := waiting_keyed
  obtain ⟨after, hOk, hMining, hPool, hOrphan⟩ := Node.procOrphanTx_erased anyScript hKeyed funded_erases waiting_miningPool
  refine ⟨after, hOk, ?_⟩
  rw [TXMemPool.Holds, hMining, hPool, hOrphan]
  simp [found, waiting]

theorem mined_lost : ∃ after, mined.node.procOrphanTx anyScript = .ok after ∧
    after.miningPool[spend.getHash]? = none := by
  obtain ⟨after, hOk, hMining, -⟩ := Node.procOrphanTx_erased anyScript mined_keyed funded_erases spend_evaluated.2.2
  exact ⟨after, hOk, hMining⟩

end PoolState.Sample

/-- An orphan whose parent has arrived is lost, and a transaction that has been selected for mining is erased. -/
theorem Node.exists_orphan_erased : ∃ (verifyScript : VerifyScript) (tx : NetMessageTransaction),
    (∃ state, PoolState.Run verifyScript (fun _ _ => True) state ∧
      state.node.memPool.Waits (fun _ => False) tx.getHash tx ∧ state.node.Promotable verifyScript tx ∧
      ∃ after, state.node.procOrphanTx verifyScript = .ok after ∧ ¬ after.Holds tx) ∧
    ∃ state selected, PoolState.Run verifyScript (fun _ _ => True) state ∧
      tx ∈ (getNewBlockTxs state.node.ledger state.node.memPool).vtx ∧
      state.apply verifyScript .getNewBlockTxs = .ok selected ∧
      selected.node.memPool.miningPool[tx.getHash]? = some tx ∧
      ∃ after, selected.node.procOrphanTx verifyScript = .ok after ∧ after.miningPool[tx.getHash]? = none := by
  refine ⟨PoolState.Sample.anyScript, PoolState.Sample.spend, ⟨PoolState.Sample.found, ?_⟩,
    PoolState.Sample.pooled, PoolState.Sample.mined, ?_⟩
  · exact ⟨PoolState.Sample.run_found, .inr ⟨PoolState.Sample.waiting_miningPool, not_false⟩,
      PoolState.Sample.found_promotable, PoolState.Sample.found_lost⟩
  · exact ⟨PoolState.Sample.run_pooled, PoolState.Sample.spend_evaluated.2.1, rfl,
      PoolState.Sample.spend_evaluated.2.2, PoolState.Sample.mined_lost⟩

end BitcoinGpuMiner
