import BitcoinGpuMiner.Pool.Tracking

/-! # What the pools keep, and what they let in

`GetNewBlockTxs` clears `_miningPool`, `ProcOrphanTx` erases an entry that `AcceptTx` has just refused, and
`UndoMiningTxs` moves orphans into `_pool`: each result holds in the runs that stay clear of these.
-/

namespace BitcoinGpuMiner

open Foundation

set_option autoImplicit false

namespace PoolState

variable {verifyScript : VerifyScript} {state state' : PoolState} {op : PoolOp}

section Fields

variable (state : PoolState) (tx : NetMessageTransaction) (memPool : TXMemPool) (result passed : Bool)

theorem node_answered : (state.answered tx passed).node = state.node := by
  rw [answered]
  split <;> rfl

theorem node_accepted : (state.accepted tx memPool result).node = { state.node with memPool := memPool } := by
  have hNext : (if state.checks tx then (state.withPool memPool).answered tx result
      else state.withPool memPool).node = (state.withPool memPool).node := by
    split
    · exact node_answered ..
    · rfl
  rw [accepted]
  split <;> exact hNext

theorem owed_answered {other : NetMessageTransaction} (hOwed : other ∈ (state.answered tx passed).owed) :
    other ∈ state.owed := by
  rw [answered] at hOwed
  split at hOwed
  · exact hOwed
  · exact (List.mem_filter.mp hOwed).1

theorem owed_accepted {other : NetMessageTransaction} (hOwed : other ∈ (state.accepted tx memPool result).owed) :
    other ∈ state.owed ∨ (other = tx ∧ result = true) := by
  have hNext : ∀ other ∈ (if state.checks tx then (state.withPool memPool).answered tx result
      else state.withPool memPool).owed, other ∈ state.owed := by
    intro other hOther
    split at hOther
    · exact owed_answered (state.withPool memPool) tx result hOther
    · exact hOther
  rw [accepted] at hOwed
  split at hOwed
  case isTrue hResult =>
    rcases List.mem_cons.mp hOwed with hSelf | hOld
    · exact .inr ⟨hSelf, hResult⟩
    · exact .inl (hNext other hOld)
  case isFalse => exact .inl (hNext other hOwed)

theorem checked_answered {other : NetMessageTransaction} (hChecked : other ∈ state.checked) :
    other ∈ (state.answered tx passed).checked := by
  rw [answered]
  split
  · exact List.mem_cons_of_mem _ hChecked
  · exact hChecked

theorem checked_accepted {other : NetMessageTransaction} (hChecked : other ∈ state.checked) :
    other ∈ (state.accepted tx memPool result).checked := by
  have hNext : other ∈ (if state.checks tx then (state.withPool memPool).answered tx result
      else state.withPool memPool).checked := by
    split
    · exact checked_answered (state.withPool memPool) tx _ hChecked
    · exact hChecked
  rw [accepted]
  split <;> exact hNext

theorem checked_accepted_self (hChecks : state.checks tx = true) : tx ∈ (state.accepted tx memPool true).checked := by
  rw [accepted, if_pos hChecks, answered, if_pos rfl, if_pos rfl]
  exact List.mem_cons_self

end Fields

/-- What a step does to the pools, by the operation. -/
inductive StepCase (verifyScript : VerifyScript) (state : PoolState) : PoolOp → PoolState → Prop where
  | acceptTx {tx : NetMessageTransaction} {memPool : TXMemPool} {result : Bool}
      (hCase : state.node.AcceptTxCase state.node.memPool tx memPool result) :
      StepCase verifyScript state (.acceptTx tx) (state.accepted tx memPool result)
  | getNewBlockTxs : StepCase verifyScript state .getNewBlockTxs
      (state.withPool (getNewBlockTxs state.node.ledger state.node.memPool).memPool)
  | undoMiningTxs : StepCase verifyScript state .undoMiningTxs (state.withPool state.node.memPool.undoMiningTxs)
  | procOrphanTx {memPool : TXMemPool} (hProc : state.node.procOrphanTx verifyScript = .ok memPool) :
      StepCase verifyScript state .procOrphanTx (state.withPool memPool)
  | remove {hash : Uint256} : StepCase verifyScript state (.remove hash)
      { state.withPool (state.node.memPool.remove hash) with owed := state.owed.filter (·.getHash ≠ hash) }
  | checkTransaction {tx : NetMessageTransaction} {scriptFlags : UInt32} {height : Int} {overlay : Option Overlay}
      (passed : Bool) :
      StepCase verifyScript state (.checkTransaction tx scriptFlags height overlay) (state.answered tx passed)
  | chain {node : Node} :
      StepCase verifyScript state (.chain node) { state with node := { node with memPool := state.node.memPool } }

theorem apply_cases (hApply : state.apply verifyScript op = .ok state') : StepCase verifyScript state op state' := by
  cases op with
  | acceptTx tx =>
    rw [apply] at hApply
    split at hApply
    · cases hApply
    case h_2 memPool result hAccept =>
    cases hApply
    exact .acceptTx (Node.acceptTx_cases hAccept)
  | getNewBlockTxs =>
    cases hApply
    exact .getNewBlockTxs
  | undoMiningTxs =>
    cases hApply
    exact .undoMiningTxs
  | procOrphanTx =>
    rw [apply] at hApply
    split at hApply
    · cases hApply
    case h_2 memPool hProc =>
    cases hApply
    exact .procOrphanTx hProc
  | remove hash =>
    cases hApply
    exact .remove
  | checkTransaction tx scriptFlags height overlay =>
    rw [apply] at hApply
    split at hApply
    · cases hApply
    case h_2 answer _ =>
    cases hApply
    exact .checkTransaction answer.isSome
  | chain node =>
    cases hApply
    exact .chain

theorem Run.nil {allowed : PoolState → PoolOp → Prop} (node : Node) : Run verifyScript allowed (start node) :=
  ⟨node, .refl⟩

theorem Run.step {allowed : PoolState → PoolOp → Prop} (hRun : Run verifyScript allowed state) (op : PoolOp)
    (hGrows : state.Grows op) (hAllowed : allowed state op) (hApply : state.apply verifyScript op = .ok state') :
    Run verifyScript allowed state' := by
  obtain ⟨node, hSteps⟩ := hRun
  exact ⟨node, hSteps.tail ⟨op, hGrows, hAllowed, hApply⟩⟩

theorem Run.invariant {allowed : PoolState → PoolOp → Prop} {motive : PoolState → Prop}
    (hStart : ∀ node, motive (start node))
    (hStep : ∀ {state op state'}, motive state → state.Grows op → allowed state op →
      StepCase verifyScript state op state' → motive state')
    (hRun : Run verifyScript allowed state) : motive state := by
  obtain ⟨node, hSteps⟩ := hRun
  induction hSteps with
  | refl => exact hStart node
  | tail _ hLast ih =>
    obtain ⟨op, hGrows, hAllowed, hApply⟩ := hLast
    exact hStep ih hGrows hAllowed (apply_cases hApply)

theorem StepCase.orderly (hCase : StepCase verifyScript state op state') (hOrderly : state.node.memPool.Orderly) :
    state'.node.memPool.Orderly := by
  cases hCase with
  | acceptTx hAccept =>
    rw [node_accepted]
    exact hAccept.orderly hOrderly
  | getNewBlockTxs => exact hOrderly.getNewBlockTxs state.node.ledger
  | undoMiningTxs => exact hOrderly.undoMiningTxs
  | procOrphanTx hProc => exact Node.orderly_procOrphanTx hOrderly hProc
  | remove => exact hOrderly.remove _
  | checkTransaction =>
    rw [node_answered]
    exact hOrderly
  | chain => exact hOrderly

/-! One transaction serves all examples: on an empty ledger it is an orphan, on a funded one it is valid. -/

namespace Sample

def spend : NetMessageTransaction := ⟨[⟨⟨Uint256.ofNat 1, 0⟩, [], 0, []⟩], [⟨40, []⟩], 1, 0⟩

def funded : Node :=
  { Node.empty with
    tips := BlockTipManager.empty.addTip (BlockIndex.make 1 (Uint256.ofNat 2) Uint256.null)
    ledger := ⟨(∅ : HashMap TxIdx).insert (Uint256.ofNat 1) ⟨Uint256.null, 1, ⟨[], [⟨50, []⟩], 1, 0⟩⟩,
      UtxoSet.put ∅ ⟨Uint256.ofNat 1, 0⟩ ⟨Uint256.null, 1, false⟩⟩ }

def anyScript : VerifyScript := fun _ _ _ _ _ _ _ => true

def pooled : PoolState :=
  ⟨{ funded with memPool := ⟨(∅ : HashMap NetMessageTransaction).insert spend.getHash spend, ∅, ∅⟩ }, [spend], [spend]⟩

theorem unknown : TXMemPool.empty.knows spend.getHash = false := by simp [TXMemPool.knows, TXMemPool.empty]

theorem apply_acceptTx_funded : (start funded).apply anyScript (.acceptTx spend) = .ok pooled := by
  have hFound : funded.ledger.allInputsFound spend = true := by decide
  have hTip : funded.tips.getActiveTip = some (BlockIndex.make 1 (Uint256.ofNat 2) Uint256.null) := by decide
  have hCheck : checkTransaction anyScript funded.ledger
      (ScriptValidation.getBlockScriptFlags (BlockIndex.make 2 Uint256.null Uint256.null)) 2 none spend ⟨0, 0⟩ =
        .ok (some ⟨10, 1⟩) := by rfl
  have hAccept : (start funded).node.acceptTx anyScript (start funded).node.memPool spend =
      .ok (pooled.node.memPool, true) := Node.acceptTx_pooled unknown hFound hTip hCheck
  have hChecks : (start funded).checks spend = true := by
    rw [checks]
    exact (congrArg₂ (fun known found => !known && found) unknown hFound)
  rw [apply, hAccept]
  dsimp only
  rw [accepted, if_pos hChecks]
  rfl

def waiting : PoolState :=
  ⟨{ Node.empty with memPool := ⟨∅, ∅, (∅ : HashMap NetMessageTransaction).insert spend.getHash spend⟩ }, [spend], []⟩

theorem apply_acceptTx : (start Node.empty).apply anyScript (.acceptTx spend) = .ok waiting := by
  have hMissing : Node.empty.ledger.allInputsFound spend = false := by decide
  have hAccept : (start Node.empty).node.acceptTx anyScript (start Node.empty).node.memPool spend =
      .ok (waiting.node.memPool, true) := Node.acceptTx_orphan anyScript unknown hMissing
  have hChecks : (start Node.empty).checks spend = false := by
    rw [checks]
    exact (congrArg₂ (fun known found => !known && found) unknown hMissing)
  rw [apply, hAccept]
  dsimp only
  rw [accepted, if_neg (Bool.eq_false_iff.mp hChecks)]
  rfl

theorem run_waiting {allowed : PoolState → PoolOp → Prop} (hAllowed : allowed (start Node.empty) (.acceptTx spend)) :
    Run anyScript allowed waiting := (Run.nil Node.empty).step (.acceptTx spend) trivial hAllowed apply_acceptTx

theorem run_undone {allowed : PoolState → PoolOp → Prop} (hAllowed : allowed (start Node.empty) (.acceptTx spend))
    (hUndo : allowed waiting .undoMiningTxs) :
    Run anyScript allowed (waiting.withPool waiting.node.memPool.undoMiningTxs) :=
  (run_waiting hAllowed).step .undoMiningTxs trivial hUndo rfl

end Sample

section Kept

/-- Every transaction that is owed is in one of the maps or in the index. -/
def Kept (state : PoolState) : Prop :=
  ∀ tx ∈ state.owed, state.node.memPool.Holds tx ∨ state.node.ledger.txIndex.contains tx.getHash = true

/-- A template is made only when `_miningPool` has nothing left that is not in the chain, and `ProcOrphanTx` is
called only while the inputs of each such entry are not all known. -/
def settled (state : PoolState) : PoolOp → Prop
  | .getNewBlockTxs =>
    ∀ entry ∈ state.node.memPool.miningPool.toList, state.node.ledger.txIndex.contains entry.2.getHash = true
  | .procOrphanTx => ∀ entry ∈ state.node.memPool.miningPool.toList,
    state.node.ledger.allInputsFound entry.2 = true → state.node.ledger.txIndex.contains entry.2.getHash = true
  | _ => True

theorem StepCase.kept (hCase : StepCase verifyScript state op state') (hOrderly : state.node.memPool.Orderly)
    (hKept : state.Kept) (hGrows : state.Grows op) (hSettled : state.settled op) : state'.Kept := by
  intro tx hOwed
  cases hCase with
  | acceptTx hAccept =>
    rw [node_accepted]
    rcases owed_accepted _ _ _ _ hOwed with hOld | ⟨rfl, rfl⟩
    · exact (hKept tx hOld).imp_left hAccept.holds
    · exact .inl hAccept.holds_self
  | getNewBlockTxs =>
    rcases hKept tx hOwed with hHolds | hIndexed
    · rcases hHolds.getNewBlockTxs state.node.ledger with hStill | hMining
      · exact .inl hStill
      · exact .inr (hSettled (tx.getHash, tx) (Std.ExtTreeMap.mem_toList_iff_getElem?_eq_some.mpr hMining))
    · exact .inr hIndexed
  | undoMiningTxs => exact (hKept tx hOwed).imp_left fun hHolds => hHolds.undoMiningTxs hOrderly
  | procOrphanTx hProc =>
    rcases hKept tx hOwed with hHolds | hIndexed
    · rcases Node.holds_procOrphanTx hOrderly.toKeyed hProc hHolds with hStill | ⟨hMining, hErases⟩
      · exact .inl hStill
      · rcases Bool.or_eq_true_iff.mp hErases with hIndexed | hFound
        · exact .inr hIndexed
        · exact .inr (hSettled (tx.getHash, tx) (Std.ExtTreeMap.mem_toList_iff_getElem?_eq_some.mpr hMining) hFound)
    · exact .inr hIndexed
  | remove =>
    obtain ⟨hOld, hNe⟩ := List.mem_filter.mp hOwed
    exact (hKept tx hOld).imp_left fun hHolds => hHolds.remove (of_decide_eq_true hNe)
  | checkTransaction passed =>
    rw [node_answered]
    exact hKept tx (owed_answered _ _ _ hOwed)
  | chain => exact (hKept tx hOwed).imp_right (hGrows tx.getHash)

theorem kept_of_settled (hRun : Run verifyScript settled state) : state.Kept := by
  have hBoth : state.node.memPool.Orderly ∧ state.Kept := by
    refine Run.invariant (motive := fun state => state.node.memPool.Orderly ∧ state.Kept) ?_ ?_ hRun
    · intro node
      exact ⟨TXMemPool.Orderly.empty, fun tx hOwed => absurd hOwed List.not_mem_nil⟩
    · rintro state op state' ⟨hOrderly, hKept⟩ hGrows hSettled hCase
      exact ⟨hCase.orderly hOrderly, hCase.kept hOrderly hKept hGrows hSettled⟩
  exact hBoth.2

/-- The orphan is put into `_pool`, from where a template does not take it. -/
theorem kept_of_settled_waiting : ∃ state : PoolState, Run Sample.anyScript settled state ∧ state.owed = [Sample.spend] ∧
    state.Kept := by
  have hRun : Run Sample.anyScript settled (Sample.waiting.withPool (getNewBlockTxs Sample.waiting.node.ledger
      Sample.waiting.node.memPool.undoMiningTxs).memPool) := by
    refine (Sample.run_undone trivial trivial).step .getNewBlockTxs trivial ?_ rfl
    intro entry hEntry
    have hGet := Std.ExtTreeMap.mem_toList_iff_getElem?_eq_some.mp hEntry
    cases Std.ExtTreeMap.getElem?_empty.symm.trans hGet
  exact ⟨_, hRun, rfl, kept_of_settled hRun⟩

/-- A template made while an orphan waits in `_miningPool` drops it. -/
theorem exists_lost : ∃ (verifyScript : VerifyScript) (state : PoolState) (tx : NetMessageTransaction),
    Run verifyScript (fun _ _ => True) state ∧ tx ∈ state.owed ∧ ¬ state.Kept := by
  refine ⟨Sample.anyScript, Sample.waiting.withPool TXMemPool.empty, Sample.spend, ?_, List.mem_cons_self, ?_⟩
  · have hSelect : (getNewBlockTxs Sample.waiting.node.ledger Sample.waiting.node.memPool).memPool = TXMemPool.empty := by
      have hNone : Sample.waiting.node.memPool.pool.toList = [] := by simp [Sample.waiting]
      rw [getNewBlockTxs, hNone]
      rfl
    apply (Sample.run_waiting trivial).step .getNewBlockTxs trivial trivial
    rw [apply, hSelect]
  · intro hKept
    rcases hKept Sample.spend List.mem_cons_self with hHolds | hIndexed
    · simp [TXMemPool.Holds, withPool, TXMemPool.empty] at hHolds
    · simp [withPool, Sample.waiting, Node.empty, Ledger.empty] at hIndexed

end Kept

section Validated

/-- What is in `_pool`, and what a template would take from it, has been checked. -/
structure Validated (state : PoolState) : Prop where
  pool : ∀ (hash : Uint256) (tx : NetMessageTransaction), state.node.memPool.pool[hash]? = some tx → tx ∈ state.checked
  vtx : ∀ tx ∈ (getNewBlockTxs state.node.ledger state.node.memPool).vtx, tx ∈ state.checked

/-- `UndoMiningTxs` is called only while `_miningPool` has no orphan. -/
def orphanFree (state : PoolState) : PoolOp → Prop
  | .undoMiningTxs => ∀ entry ∈ state.node.memPool.miningPool.toList, entry.2 ∈ state.checked
  | _ => True

theorem Validated.of_pool (hPool : ∀ (hash : Uint256) (tx : NetMessageTransaction),
    state.node.memPool.pool[hash]? = some tx → tx ∈ state.checked) : state.Validated := by
  refine ⟨hPool, ?_⟩
  intro tx hTx
  obtain ⟨hash, hGet⟩ := pool_of_mem_getNewBlockTxs hTx
  exact hPool hash tx hGet

theorem StepCase.validated (hCase : StepCase verifyScript state op state') (hKeyed : state.node.memPool.Keyed)
    (hValidated : state.Validated) (hFree : state.orphanFree op) : state'.Validated := by
  apply Validated.of_pool
  intro hash tx hGet
  cases hCase with
  | @acceptTx taken memPool result hAccept =>
    rw [node_accepted] at hGet
    cases hAccept with
    | known | orphan | failed => exact checked_accepted _ _ _ _ (hValidated.pool hash tx hGet)
    | pooled hNew hFound =>
      rcases (lookup_insert_eq_some_iff ..).mp hGet with ⟨-, rfl⟩ | ⟨-, hOld⟩
      · apply checked_accepted_self
        rw [checks, hNew, hFound]
        rfl
      · exact checked_accepted _ _ _ _ (hValidated.pool hash tx hOld)
  | getNewBlockTxs =>
    rcases (getNewBlockTxs_moved state.node.ledger state.node.memPool).maps hash with ⟨hSame, -⟩ | ⟨_, -, hGone, -⟩
    · exact hValidated.pool hash tx (hSame.symm.trans hGet)
    · cases hGone.symm.trans hGet
  | undoMiningTxs =>
    have hOr := (TXMemPool.lookup_undoMiningTxs state.node.memPool hash).symm.trans hGet
    rcases Option.or_eq_some_iff.mp hOr with hMining | ⟨-, hPool⟩
    · exact hFree (hash, tx) (Std.ExtTreeMap.mem_toList_iff_getElem?_eq_some.mpr hMining)
    · exact hValidated.pool hash tx hPool
  | procOrphanTx hProc =>
    obtain ⟨miningPool, hOk, -⟩ := Node.procOrphanTx_spec verifyScript hKeyed
    cases hOk.symm.trans hProc
    exact hValidated.pool hash tx hGet
  | @remove removed =>
    have hErased := (lookup_erase state.node.memPool.pool removed hash).symm.trans hGet
    split at hErased
    · cases hErased
    · exact hValidated.pool hash tx hErased
  | checkTransaction passed =>
    rw [node_answered] at hGet
    exact checked_answered _ _ _ (hValidated.pool hash tx hGet)
  | chain => exact hValidated.pool hash tx hGet

theorem validated_of_orphanFree (hRun : Run verifyScript orphanFree state) : state.Validated := by
  have hBoth : state.node.memPool.Orderly ∧ state.Validated := by
    refine Run.invariant (motive := fun state => state.node.memPool.Orderly ∧ state.Validated) ?_ ?_ hRun
    · intro node
      refine ⟨TXMemPool.Orderly.empty, Validated.of_pool ?_⟩
      intro hash tx hGet
      cases Std.ExtTreeMap.getElem?_empty.symm.trans hGet
    · rintro state op state' ⟨hOrderly, hValidated⟩ - hFree hCase
      exact ⟨hCase.orderly hOrderly, hCase.validated hOrderly.toKeyed hValidated hFree⟩
  exact hBoth.2

/-- The funded spend is checked, offered to a template and put back. -/
theorem validated_of_orphanFree_funded : ∃ state : PoolState, Run Sample.anyScript orphanFree state ∧
    (∃ hash : Uint256, state.node.memPool.pool[hash]? = some Sample.spend) ∧ state.Validated := by
  have hPooled : Run Sample.anyScript orphanFree Sample.pooled :=
    (Run.nil Sample.funded).step (.acceptTx Sample.spend) trivial trivial Sample.apply_acceptTx_funded
  have hOnly : ∀ (hash : Uint256) (tx : NetMessageTransaction),
      Sample.pooled.node.memPool.pool[hash]? = some tx → tx = Sample.spend := by
    intro hash tx hGet
    rcases (lookup_insert_eq_some_iff ..).mp hGet with ⟨-, hTx⟩ | ⟨-, hEmpty⟩
    · exact hTx
    · cases Std.ExtTreeMap.getElem?_empty.symm.trans hEmpty
  have hMoved := getNewBlockTxs_moved Sample.pooled.node.ledger Sample.pooled.node.memPool
  have hOffered := hPooled.step .getNewBlockTxs trivial trivial rfl
  have hFree : orphanFree (Sample.pooled.withPool
      (getNewBlockTxs Sample.pooled.node.ledger Sample.pooled.node.memPool).memPool) .undoMiningTxs := by
    intro entry hEntry
    have hGet := Std.ExtTreeMap.mem_toList_iff_getElem?_eq_some.mp hEntry
    rcases hMoved.maps entry.1 with ⟨-, hNone⟩ | ⟨tx, hBefore, -, hAfter⟩
    · cases (hNone.trans Std.ExtTreeMap.getElem?_empty).symm.trans hGet
    · rw [Option.some.inj (hGet.symm.trans hAfter), hOnly _ _ hBefore]
      exact List.mem_cons_self
  have hUndone := hOffered.step .undoMiningTxs trivial hFree rfl
  refine ⟨_, hUndone, ⟨Sample.spend.getHash, ?_⟩, validated_of_orphanFree hUndone⟩
  refine (TXMemPool.lookup_undoMiningTxs ..).trans ?_
  rcases hMoved.maps Sample.spend.getHash with ⟨hPool, hNone⟩ | ⟨tx, hBefore, -, hAfter⟩
  · rw [withPool, hPool, hNone]
    refine (congrArg (Option.or · _) Std.ExtTreeMap.getElem?_empty).trans ?_
    exact (Option.none_or).trans (lookup_insert_self ..)
  · rw [withPool, hAfter, Option.some_or, hOnly _ _ hBefore]

/-- An orphan that goes through `UndoMiningTxs` is in `_pool`, although nothing has checked it. -/
theorem exists_unchecked : ∃ (verifyScript : VerifyScript) (state : PoolState) (hash : Uint256) (tx : NetMessageTransaction),
    Run verifyScript (fun _ _ => True) state ∧ state.node.memPool.pool[hash]? = some tx ∧ tx ∉ state.checked := by
  refine ⟨Sample.anyScript, Sample.waiting.withPool Sample.waiting.node.memPool.undoMiningTxs, Sample.spend.getHash,
    Sample.spend, ?_, ?_, List.not_mem_nil⟩
  · exact Sample.run_undone trivial trivial
  · refine (TXMemPool.lookup_undoMiningTxs ..).trans ?_
    rw [Sample.waiting, lookup_insert_self, Option.some_or]

end Validated

end PoolState

end BitcoinGpuMiner
