import Mathlib.Logic.Relation
import BitcoinGpuMiner.Pool.Moves

/-! # Transactions on their way through the pool

The operations of `TXMemPool` come in any order, while the chain goes its own way and calls `CheckTransaction`
for reasons of its own. Beside the pools a run carries what they owe: the transactions `AcceptTx` took in and
nothing has released since, and those `CheckTransaction` has passed.
-/

namespace BitcoinGpuMiner

open Foundation

set_option autoImplicit false

namespace TXMemPool

variable {memPool memPool' : TXMemPool} {tx : NetMessageTransaction}

def Holds (memPool : TXMemPool) (tx : NetMessageTransaction) : Prop :=
  memPool.pool[tx.getHash]? = some tx ∨ memPool.orphanPool[tx.getHash]? = some tx ∨
    memPool.miningPool[tx.getHash]? = some tx

structure Orderly (memPool : TXMemPool) : Prop extends memPool.Keyed where
  apart : ∀ hash : Uint256, memPool.pool[hash]? = none ∨ memPool.miningPool[hash]? = none

theorem knows_eq_false_iff (memPool : TXMemPool) (hash : Uint256) : memPool.knows hash = false ↔
    memPool.pool[hash]? = none ∧ memPool.orphanPool[hash]? = none ∧ memPool.miningPool[hash]? = none := by
  simp only [knows, contains_eq_isSome, Bool.or_eq_false_iff, Option.isSome_eq_false_iff, Option.isNone_iff_eq_none,
    and_assoc]

theorem Holds.not_knows (hHolds : memPool.Holds tx) : memPool.knows tx.getHash ≠ false := by
  rw [Ne, knows_eq_false_iff]
  rintro ⟨hPool, hOrphan, hMining⟩
  rcases hHolds with hGet | hGet | hGet
  · cases hPool.symm.trans hGet
  · cases hOrphan.symm.trans hGet
  · cases hMining.symm.trans hGet

theorem Orderly.empty : TXMemPool.empty.Orderly := ⟨Keyed.empty, fun _ => .inl Std.ExtTreeMap.getElem?_empty⟩

theorem Orderly.remove (hOrderly : memPool.Orderly) (hash : Uint256) : (memPool.remove hash).Orderly := by
  refine ⟨hOrderly.toKeyed.remove hash, ?_⟩
  intro other
  rw [TXMemPool.remove, lookup_erase, lookup_erase]
  split
  · exact .inl rfl
  · exact hOrderly.apart other

theorem Holds.remove (hHolds : memPool.Holds tx) {hash : Uint256} (hNe : tx.getHash ≠ hash) :
    (memPool.remove hash).Holds tx := by
  rw [Holds, TXMemPool.remove, lookup_erase, lookup_erase, if_neg hNe.symm, if_neg hNe.symm]
  exact hHolds

theorem Orderly.undoMiningTxs (hOrderly : memPool.Orderly) : memPool.undoMiningTxs.Orderly :=
  ⟨hOrderly.toKeyed.undoMiningTxs, fun _ => .inr Std.ExtTreeMap.getElem?_empty⟩

theorem Holds.undoMiningTxs (hHolds : memPool.Holds tx) (hOrderly : memPool.Orderly) :
    memPool.undoMiningTxs.Holds tx := by
  rw [Holds, lookup_undoMiningTxs]
  rcases hHolds with hPool | hOrphan | hMining
  · rcases hOrderly.apart tx.getHash with hNone | hNone
    · cases hPool.symm.trans hNone
    · exact .inl (by rw [hNone, hPool, Option.none_or])
  · exact .inr (.inl hOrphan)
  · exact .inl (by rw [hMining, Option.some_or])

theorem Orderly.getNewBlockTxs (hOrderly : memPool.Orderly) (ledger : Ledger) :
    (getNewBlockTxs ledger memPool).memPool.Orderly := by
  refine ⟨getNewBlockTxs_keyed ledger hOrderly.toKeyed, ?_⟩
  intro hash
  rcases (getNewBlockTxs_moved ledger memPool).maps hash with ⟨-, hMining⟩ | ⟨_, -, hPool, -⟩
  · exact .inr (hMining.trans Std.ExtTreeMap.getElem?_empty)
  · exact .inl hPool

theorem Holds.getNewBlockTxs (hHolds : memPool.Holds tx) (ledger : Ledger) :
    (getNewBlockTxs ledger memPool).memPool.Holds tx ∨ memPool.miningPool[tx.getHash]? = some tx := by
  have hMoved := getNewBlockTxs_moved ledger memPool
  rcases hHolds with hPool | hOrphan | hMining
  · rcases hMoved.maps tx.getHash with ⟨hSame, -⟩ | ⟨moved, hBefore, -, hAfter⟩
    · exact .inl (.inl (hSame.trans hPool))
    · cases hPool.symm.trans hBefore
      exact .inl (.inr (.inr hAfter))
  · rw [Holds, hMoved.orphanPool]
    exact .inl (.inr (.inl hOrphan))
  · exact .inr hMining

end TXMemPool

namespace Node

variable {verifyScript : VerifyScript} {node : Node} {memPool memPool' : TXMemPool} {tx other : NetMessageTransaction}
variable {result : Bool}

theorem AcceptTxCase.orderly (hCase : node.AcceptTxCase memPool tx memPool' result) (hOrderly : memPool.Orderly) :
    memPool'.Orderly := by
  refine ⟨hCase.keyed hOrderly.toKeyed, ?_⟩
  intro hash
  cases hCase with
  | known | failed => exact hOrderly.apart hash
  | orphan hNew =>
    rw [lookup_insert]
    split
    case isTrue hSame => exact .inl (hSame ▸ ((memPool.knows_eq_false_iff _).mp hNew).1)
    case isFalse => exact hOrderly.apart hash
  | pooled hNew =>
    rw [lookup_insert]
    split
    case isTrue hSame => exact .inr (hSame ▸ ((memPool.knows_eq_false_iff _).mp hNew).2.2)
    case isFalse => exact hOrderly.apart hash

theorem AcceptTxCase.holds (hCase : node.AcceptTxCase memPool tx memPool' result) (hHolds : memPool.Holds other) :
    memPool'.Holds other := by
  have hNe (hNew : memPool.knows tx.getHash = false) : tx.getHash ≠ other.getHash :=
    fun hSame => hHolds.not_knows (hSame ▸ hNew)
  cases hCase with
  | known | failed => exact hHolds
  | orphan hNew =>
    rw [TXMemPool.Holds, lookup_insert_ne _ _ (hNe hNew)]
    exact hHolds
  | pooled hNew =>
    rw [TXMemPool.Holds, lookup_insert_ne _ _ (hNe hNew)]
    exact hHolds

theorem AcceptTxCase.holds_self (hCase : node.AcceptTxCase memPool tx memPool' true) : memPool'.Holds tx := by
  cases hCase with
  | orphan => exact .inr (.inr (lookup_insert_self ..))
  | pooled => exact .inl (lookup_insert_self ..)

theorem orderly_procOrphanTx (hOrderly : node.memPool.Orderly) (hProc : node.procOrphanTx verifyScript = .ok memPool') :
    memPool'.Orderly := by
  refine ⟨procOrphanTx_keyed hOrderly.toKeyed hProc, ?_⟩
  obtain ⟨miningPool, hOk, hLookup⟩ := procOrphanTx_spec verifyScript hOrderly.toKeyed
  rw [hOk] at hProc
  cases hProc
  intro hash
  apply (hOrderly.apart hash).imp_right
  intro hNone
  rw [Option.eq_none_iff_forall_ne_some] at hNone ⊢
  intro tx hGet
  exact hNone tx ((hLookup hash tx).mp hGet).1

theorem holds_procOrphanTx (hKeyed : node.memPool.Keyed) (hProc : node.procOrphanTx verifyScript = .ok memPool')
    (hHolds : node.memPool.Holds tx) :
    memPool'.Holds tx ∨ (node.memPool.miningPool[tx.getHash]? = some tx ∧ node.ledger.erases tx = true) := by
  obtain ⟨miningPool, hOk, hLookup⟩ := procOrphanTx_spec verifyScript hKeyed
  rw [hOk] at hProc
  cases hProc
  rcases hHolds with hPool | hOrphan | hMining
  · exact .inl (.inl hPool)
  · exact .inl (.inr (.inl hOrphan))
  · cases hErases : node.ledger.erases tx with
    | false => exact .inl (.inr (.inr ((hLookup _ _).mpr ⟨hMining, hErases⟩)))
    | true => exact .inr ⟨hMining, rfl⟩

end Node

structure PoolState where
  node : Node
  /-- Accepted, and not released since. -/
  owed : List NetMessageTransaction
  /-- Passed by `CheckTransaction` at some time. -/
  checked : List NetMessageTransaction

inductive PoolOp where
  | acceptTx (tx : NetMessageTransaction)
  | getNewBlockTxs
  | undoMiningTxs
  | procOrphanTx
  | remove (hash : Uint256)
  | checkTransaction (tx : NetMessageTransaction) (scriptFlags : UInt32) (height : Int) (overlay : Option Overlay)
  | chain (node : Node)

namespace PoolState

def withPool (state : PoolState) (memPool : TXMemPool) : PoolState :=
  { state with node := { state.node with memPool := memPool } }

/-- An answer of `CheckTransaction`: a failure releases the transaction. -/
def answered (state : PoolState) (tx : NetMessageTransaction) (passed : Bool) : PoolState :=
  if passed then { state with checked := tx :: state.checked } else { state with owed := state.owed.filter (· ≠ tx) }

/-- Whether `AcceptTx` comes to its call of `CheckTransaction`. -/
def checks (state : PoolState) (tx : NetMessageTransaction) : Bool :=
  !state.node.memPool.knows tx.getHash && state.node.ledger.allInputsFound tx

def accepted (state : PoolState) (tx : NetMessageTransaction) (memPool : TXMemPool) (result : Bool) : PoolState :=
  let next := if state.checks tx then (state.withPool memPool).answered tx result else state.withPool memPool
  if result then { next with owed := tx :: next.owed } else next

def apply (verifyScript : VerifyScript) (state : PoolState) : PoolOp → Except Fault PoolState
  | .acceptTx tx =>
    match state.node.acceptTx verifyScript state.node.memPool tx with
    | .error fault => .error fault
    | .ok (memPool, result) => .ok (state.accepted tx memPool result)
  | .getNewBlockTxs => .ok (state.withPool (getNewBlockTxs state.node.ledger state.node.memPool).memPool)
  | .undoMiningTxs => .ok (state.withPool state.node.memPool.undoMiningTxs)
  | .procOrphanTx =>
    match state.node.procOrphanTx verifyScript with
    | .error fault => .error fault
    | .ok memPool => .ok (state.withPool memPool)
  | .remove hash =>
    .ok { state.withPool (state.node.memPool.remove hash) with owed := state.owed.filter (·.getHash ≠ hash) }
  | .checkTransaction tx scriptFlags height overlay =>
    match checkTransaction verifyScript state.node.ledger scriptFlags height overlay tx ⟨0, 0⟩ with
    | .error fault => .error fault
    | .ok answer => .ok (state.answered tx answer.isSome)
  | .chain node => .ok { state with node := { node with memPool := state.node.memPool } }

def Grows (state : PoolState) : PoolOp → Prop
  | .chain node => ∀ hash, state.node.ledger.txIndex.contains hash = true → node.ledger.txIndex.contains hash = true
  | _ => True

def start (node : Node) : PoolState := ⟨{ node with memPool := TXMemPool.empty }, [], []⟩

/-- A run from empty pools whose operations are all allowed where they are made. -/
def Run (verifyScript : VerifyScript) (allowed : PoolState → PoolOp → Prop) (state : PoolState) : Prop :=
  ∃ node, Relation.ReflTransGen
    (fun state state' => ∃ op, state.Grows op ∧ allowed state op ∧ state.apply verifyScript op = .ok state')
    (start node) state

end PoolState

end BitcoinGpuMiner
