import BitcoinGpuMiner.Foundation.OrderedMap
import BitcoinGpuMiner.Model.MemPool

/-! # What the operations of `TXMemPool` do to its maps

Each operation is described by what a lookup finds afterwards. Every map holds a transaction under its own
hash, and no hash is in `_pool` and in `_miningPool` at once.
-/

namespace BitcoinGpuMiner

open Foundation

set_option autoImplicit false

structure TXMemPool.Keyed (memPool : TXMemPool) : Prop where
  pool : KeyedBy NetMessageTransaction.getHash memPool.pool
  miningPool : KeyedBy NetMessageTransaction.getHash memPool.miningPool

namespace TXMemPool

variable {memPool : TXMemPool}

/-- The test at the start of `AcceptTx`. -/
def knows (memPool : TXMemPool) (hash : Uint256) : Bool :=
  memPool.pool.contains hash || memPool.orphanPool.contains hash || memPool.miningPool.contains hash

theorem Keyed.empty : TXMemPool.empty.Keyed := ⟨KeyedBy.empty, KeyedBy.empty⟩

theorem Keyed.remove (hKeyed : memPool.Keyed) (hash : Uint256) : (memPool.remove hash).Keyed :=
  ⟨hKeyed.pool.erase hash, hKeyed.miningPool.erase hash⟩

theorem Keyed.removeAll (hKeyed : memPool.Keyed) (vtx : List NetMessageTransaction) :
    (vtx.foldl (fun memPool tx => memPool.remove tx.getHash) memPool).Keyed := by
  induction vtx generalizing memPool with
  | nil => exact hKeyed
  | cons tx rest ih => exact ih (hKeyed.remove tx.getHash)

section Undo

theorem lookup_undoMiningTxs (memPool : TXMemPool) (hash : Uint256) :
    memPool.undoMiningTxs.pool[hash]? = memPool.miningPool[hash]?.or memPool.pool[hash]? := by
  rw [undoMiningTxs]
  dsimp only
  rw [Std.ExtTreeMap.foldl_eq_foldl_toList, lookup_foldl_toList]

theorem Keyed.undoMiningTxs (hKeyed : memPool.Keyed) : memPool.undoMiningTxs.Keyed := by
  refine ⟨?_, KeyedBy.empty⟩
  intro hash tx hGet
  rw [lookup_undoMiningTxs] at hGet
  rcases Option.or_eq_some_iff.mp hGet with hMining | ⟨-, hPool⟩
  · exact hKeyed.miningPool hash tx hMining
  · exact hKeyed.pool hash tx hPool

end Undo

/-- Some hashes have gone from `_pool` to `_miningPool`, with what was there. -/
structure Moved (before after : TXMemPool) : Prop where
  orphanPool : after.orphanPool = before.orphanPool
  maps : ∀ hash : Uint256, (after.pool[hash]? = before.pool[hash]? ∧ after.miningPool[hash]? = before.miningPool[hash]?) ∨
    ∃ tx, before.pool[hash]? = some tx ∧ after.pool[hash]? = none ∧ after.miningPool[hash]? = some tx

namespace Moved

variable {before between after : TXMemPool}

theorem refl (memPool : TXMemPool) : Moved memPool memPool := ⟨rfl, fun _ => .inl ⟨rfl, rfl⟩⟩

theorem trans (hFirst : Moved before between) (hSecond : Moved between after) : Moved before after := by
  refine ⟨hSecond.orphanPool.trans hFirst.orphanPool, ?_⟩
  intro hash
  rcases hSecond.maps hash with ⟨hPool, hMining⟩ | ⟨tx, hBefore, hPool, hMining⟩
  · rw [hPool, hMining]
    exact hFirst.maps hash
  · rcases hFirst.maps hash with ⟨hSame, -⟩ | ⟨_, -, hGone, -⟩
    · rw [hSame] at hBefore
      exact .inr ⟨tx, hBefore, hPool, hMining⟩
    · rw [hGone] at hBefore
      cases hBefore

theorem single {hash : Uint256} {tx : NetMessageTransaction} (hGet : memPool.pool[hash]? = some tx) :
    Moved memPool
      { memPool with miningPool := memPool.miningPool.insert hash tx, pool := memPool.pool.erase hash } := by
  refine ⟨rfl, ?_⟩
  intro other
  dsimp only
  rw [lookup_insert, lookup_erase]
  by_cases hSame : hash = other
  · rw [if_pos hSame, if_pos hSame, ← hSame]
    exact .inr ⟨tx, hGet, rfl, rfl⟩
  · rw [if_neg hSame, if_neg hSame]
    exact .inl ⟨rfl, rfl⟩

theorem keyed (hMoved : Moved before after) (hKeyed : before.Keyed) : after.Keyed := by
  constructor
  · intro hash tx hGet
    rcases hMoved.maps hash with ⟨hPool, -⟩ | ⟨_, -, hGone, -⟩
    · exact hKeyed.pool hash tx (hPool ▸ hGet)
    · rw [hGone] at hGet
      cases hGet
  · intro hash tx hGet
    rcases hMoved.maps hash with ⟨-, hMining⟩ | ⟨moved, hBefore, -, hMining⟩
    · exact hKeyed.miningPool hash tx (hMining ▸ hGet)
    · rw [hMining] at hGet
      cases hGet
      exact hKeyed.pool hash tx hBefore

end Moved

end TXMemPool

section Selection

/-- The entries still to be looked at are in the pool, since no key comes twice. -/
theorem selectTxs_moved (ledger : Ledger) (entries : List (Uint256 × NetMessageTransaction)) (selection : Selection)
    (hNodup : (entries.map Prod.fst).Nodup)
    (hEntries : ∀ entry ∈ entries, selection.memPool.pool[entry.1]? = some entry.2) :
    selection.memPool.Moved (selectTxs ledger entries selection).memPool := by
  induction entries generalizing selection with
  | nil => exact .refl _
  | cons entry rest ih =>
    obtain ⟨hFresh, hRest⟩ := List.nodup_cons.mp hNodup
    obtain ⟨hEntry, hOthers⟩ := List.forall_mem_cons.mp hEntries
    rw [selectTxs]
    dsimp only
    split
    · exact ih selection hRest hOthers
    split
    · exact .refl _
    · have hStill : ∀ other ∈ rest, (selection.memPool.pool.erase entry.1)[other.1]? = some other.2 := by
        intro other hOther
        have hNe : entry.1 ≠ other.1 := fun hSame => hFresh (hSame ▸ List.mem_map_of_mem hOther)
        rw [lookup_erase, if_neg hNe]
        exact hOthers other hOther
      exact (TXMemPool.Moved.single hEntry).trans (ih ⟨_, _, _, _⟩ hRest hStill)

theorem getNewBlockTxs_moved (ledger : Ledger) (memPool : TXMemPool) :
    TXMemPool.Moved { memPool with miningPool := ∅ } (getNewBlockTxs ledger memPool).memPool := by
  refine selectTxs_moved ledger memPool.pool.toList ⟨{ memPool with miningPool := ∅ }, 0, 80, []⟩ (nodup_keys _) ?_
  intro entry hEntry
  exact Std.ExtTreeMap.mem_toList_iff_getElem?_eq_some.mp hEntry

theorem getNewBlockTxs_keyed {memPool : TXMemPool} (ledger : Ledger) (hKeyed : memPool.Keyed) :
    (getNewBlockTxs ledger memPool).memPool.Keyed :=
  (getNewBlockTxs_moved ledger memPool).keyed ⟨hKeyed.pool, KeyedBy.empty⟩

theorem mem_of_mem_selectTxs {ledger : Ledger} {entries : List (Uint256 × NetMessageTransaction)} {selection : Selection}
    {tx : NetMessageTransaction} (hTx : tx ∈ (selectTxs ledger entries selection).vtx) :
    tx ∈ selection.vtx ∨ tx ∈ entries.map Prod.snd := by
  induction entries generalizing selection with
  | nil => exact .inl hTx
  | cons entry rest ih =>
    rw [List.map_cons]
    rw [selectTxs] at hTx
    dsimp only at hTx
    split at hTx
    · exact (ih hTx).imp_right (List.mem_cons_of_mem _)
    split at hTx
    · exact .inl hTx
    · rcases ih hTx with hSelected | hRest
      · rcases List.mem_append.mp hSelected with hBefore | hNow
        · exact .inl hBefore
        · rw [List.mem_singleton.mp hNow]
          exact .inr List.mem_cons_self
      · exact .inr (List.mem_cons_of_mem _ hRest)

theorem pool_of_mem_getNewBlockTxs {ledger : Ledger} {memPool : TXMemPool} {tx : NetMessageTransaction}
    (hTx : tx ∈ (getNewBlockTxs ledger memPool).vtx) : ∃ hash : Uint256, memPool.pool[hash]? = some tx := by
  rcases mem_of_mem_selectTxs hTx with hNone | hEntry
  · exact absurd hNone List.not_mem_nil
  · obtain ⟨entry, hMem, rfl⟩ := List.mem_map.mp hEntry
    exact ⟨entry.1, Std.ExtTreeMap.mem_toList_iff_getElem?_eq_some.mp hMem⟩

end Selection

/-- Whether `ProcOrphanTx` erases the entry of `tx`. -/
def Ledger.erases (ledger : Ledger) (tx : NetMessageTransaction) : Bool :=
  ledger.txIndex.contains tx.getHash || ledger.allInputsFound tx

namespace Node

variable {verifyScript : VerifyScript} {node : Node} {memPool memPool' : TXMemPool}

/-- The ways `AcceptTx` returns. -/
inductive AcceptTxCase (node : Node) (memPool : TXMemPool) (tx : NetMessageTransaction) : TXMemPool → Bool → Prop where
  | known (hKnown : memPool.knows tx.getHash = true) : AcceptTxCase node memPool tx memPool false
  | orphan (hNew : memPool.knows tx.getHash = false) (hMissing : node.ledger.allInputsFound tx = false) :
      AcceptTxCase node memPool tx { memPool with miningPool := memPool.miningPool.insert tx.getHash tx } true
  | failed (hNew : memPool.knows tx.getHash = false) (hFound : node.ledger.allInputsFound tx = true) :
      AcceptTxCase node memPool tx memPool false
  | pooled (hNew : memPool.knows tx.getHash = false) (hFound : node.ledger.allInputsFound tx = true) :
      AcceptTxCase node memPool tx { memPool with pool := memPool.pool.insert tx.getHash tx } true

theorem acceptTx_cases {tx : NetMessageTransaction} {result : Bool}
    (hAccept : node.acceptTx verifyScript memPool tx = .ok (memPool', result)) :
    node.AcceptTxCase memPool tx memPool' result := by
  unfold acceptTx at hAccept
  dsimp only at hAccept
  split at hAccept
  case isTrue hKnown =>
    cases hAccept
    exact .known hKnown
  case isFalse hNew =>
  replace hNew := Bool.eq_false_iff.mpr hNew
  split at hAccept
  case isTrue hMissing =>
    cases hAccept
    exact .orphan hNew (Bool.not_eq_true' _ ▸ hMissing)
  case isFalse hFound =>
  replace hFound : node.ledger.allInputsFound tx = true := by simpa using hFound
  split at hAccept
  · cases hAccept
  split at hAccept
  · cases hAccept
  · cases hAccept
    exact .failed hNew hFound
  · cases hAccept
    exact .pooled hNew hFound

theorem acceptTx_orphan (verifyScript : VerifyScript) {tx : NetMessageTransaction}
    (hNew : memPool.knows tx.getHash = false) (hMissing : node.ledger.allInputsFound tx = false) :
    node.acceptTx verifyScript memPool tx =
      .ok ({ memPool with miningPool := memPool.miningPool.insert tx.getHash tx }, true) := by
  rw [TXMemPool.knows] at hNew
  simp only [acceptTx, hNew, hMissing, Bool.false_eq_true, Bool.not_false, if_false, if_true]

theorem acceptTx_pooled {tx : NetMessageTransaction} {tip : BlockIndex} {answer : CheckTransactionResult}
    (hNew : memPool.knows tx.getHash = false) (hFound : node.ledger.allInputsFound tx = true)
    (hTip : node.tips.getActiveTip = some tip)
    (hCheck : checkTransaction verifyScript node.ledger
      (ScriptValidation.getBlockScriptFlags (BlockIndex.make (tip.height + 1) Uint256.null Uint256.null))
        (tip.height + 1) none tx ⟨0, 0⟩ = .ok (some answer)) :
    node.acceptTx verifyScript memPool tx = .ok ({ memPool with pool := memPool.pool.insert tx.getHash tx }, true) := by
  rw [TXMemPool.knows] at hNew
  simp only [acceptTx, hNew, hFound, hTip, hCheck, Bool.not_true, Bool.false_eq_true, if_false]

theorem AcceptTxCase.keyed {tx : NetMessageTransaction} {result : Bool}
    (hCase : node.AcceptTxCase memPool tx memPool' result) (hKeyed : memPool.Keyed) : memPool'.Keyed := by
  cases hCase with
  | known | failed => exact hKeyed
  | orphan => exact ⟨hKeyed.pool, hKeyed.miningPool.insert rfl⟩
  | pooled => exact ⟨hKeyed.pool.insert rfl, hKeyed.miningPool⟩

theorem acceptTx_keyed {tx : NetMessageTransaction} {result : Bool} (hKeyed : memPool.Keyed)
    (hAccept : node.acceptTx verifyScript memPool tx = .ok (memPool', result)) : memPool'.Keyed :=
  (acceptTx_cases hAccept).keyed hKeyed

section Orphans

/-- `AcceptTx` refuses an entry of `_miningPool`, so all that is left to do is erase it. -/
theorem procOrphanEntry_eq {entry : Uint256 × NetMessageTransaction}
    (hHeld : memPool.miningPool.contains entry.2.getHash = true) :
    node.procOrphanEntry verifyScript memPool entry =
      .ok (if node.ledger.erases entry.2 then { memPool with miningPool := memPool.miningPool.erase entry.1 }
        else memPool) := by
  have hRefused : node.acceptTx verifyScript memPool entry.2 = .ok (memPool, false) := by
    simp [acceptTx, hHeld]
  rw [procOrphanEntry, hRefused, Ledger.erases]
  cases node.ledger.txIndex.contains entry.2.getHash with
  | true => rfl
  | false => cases node.ledger.allInputsFound entry.2 <;> rfl

/-- The rounds of `ProcOrphanTx`; an entry is there when its turn comes, since no key comes twice. -/
theorem procOrphanEntries_eq (entries : List (Uint256 × NetMessageTransaction)) (memPool : TXMemPool)
    (hNodup : (entries.map Prod.fst).Nodup)
    (hEntries : ∀ entry ∈ entries, entry.2.getHash = entry.1 ∧ memPool.miningPool.contains entry.1 = true) :
    entries.foldlM (node.procOrphanEntry verifyScript) memPool =
      .ok { memPool with
        miningPool := (entries.filter fun entry => node.ledger.erases entry.2).foldl
          (fun miningPool entry => miningPool.erase entry.1) memPool.miningPool } := by
  induction entries generalizing memPool with
  | nil => rfl
  | cons entry rest ih =>
    obtain ⟨hFresh, hRest⟩ := List.nodup_cons.mp hNodup
    obtain ⟨⟨hHash, hHeld⟩, hOthers⟩ := List.forall_mem_cons.mp hEntries
    have hEntry : node.procOrphanEntry verifyScript memPool entry = _ := procOrphanEntry_eq (hHash ▸ hHeld)
    rw [List.foldlM_cons, hEntry]
    cases hErases : node.ledger.erases entry.2 with
    | false =>
      rw [List.filter_cons, if_neg (Bool.eq_false_iff.mp hErases)]
      exact ih memPool hRest hOthers
    | true =>
      rw [List.filter_cons, if_pos hErases, List.foldl_cons]
      apply ih _ hRest
      intro other hOther
      have hNe : entry.1 ≠ other.1 := fun hSame => hFresh (hSame ▸ List.mem_map_of_mem hOther)
      refine ⟨(hOthers other hOther).1, ?_⟩
      have hThere := (hOthers other hOther).2
      rw [contains_eq_isSome] at hThere
      rw [if_pos rfl, contains_eq_isSome, lookup_erase, if_neg hNe]
      exact hThere

/-- `ProcOrphanTx` always returns. It only takes entries out of `_miningPool`: those whose inputs have become known go
the same way as those that are in the chain. -/
theorem procOrphanTx_spec (verifyScript : VerifyScript) (hKeyed : node.memPool.Keyed) :
    ∃ miningPool, node.procOrphanTx verifyScript = .ok { node.memPool with miningPool := miningPool } ∧
      ∀ (hash : Uint256) (tx : NetMessageTransaction), miningPool[hash]? = some tx ↔
        node.memPool.miningPool[hash]? = some tx ∧ node.ledger.erases tx = false := by
  refine ⟨_, procOrphanEntries_eq _ _ (nodup_keys _) ?_, ?_⟩
  · intro entry hEntry
    have hGet := Std.ExtTreeMap.mem_toList_iff_getElem?_eq_some.mp hEntry
    exact ⟨hKeyed.miningPool _ _ hGet, (contains_iff_exists ..).mpr ⟨_, hGet⟩⟩
  · intro hash tx
    rw [lookup_foldl_erase]
    split
    case isTrue hErased =>
      obtain ⟨entry, hEntry, rfl⟩ := List.mem_map.mp hErased
      obtain ⟨hMem, hErases⟩ := List.mem_filter.mp hEntry
      rw [Std.ExtTreeMap.mem_toList_iff_getElem?_eq_some.mp hMem]
      constructor
      · intro hNone
        cases hNone
      · rintro ⟨hSome, hKept⟩
        cases hSome
        cases hErases.symm.trans hKept
    case isFalse hThere =>
      constructor
      · intro hGet
        refine ⟨hGet, Bool.eq_false_iff.mpr ?_⟩
        intro hErases
        have hMem := Std.ExtTreeMap.mem_toList_iff_getElem?_eq_some.mpr hGet
        exact hThere (List.mem_map_of_mem (f := Prod.fst) (List.mem_filter.mpr ⟨hMem, hErases⟩))
      · exact fun hBoth => hBoth.1

theorem procOrphanTx_keyed (hKeyed : node.memPool.Keyed) (hProc : node.procOrphanTx verifyScript = .ok memPool') :
    memPool'.Keyed := by
  obtain ⟨miningPool, hOk, hLookup⟩ := procOrphanTx_spec verifyScript hKeyed
  rw [hOk] at hProc
  cases hProc
  exact ⟨hKeyed.pool, fun hash tx hGet => hKeyed.miningPool hash tx ((hLookup hash tx).mp hGet).1⟩

end Orphans

end Node

end BitcoinGpuMiner
