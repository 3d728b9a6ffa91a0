import BitcoinGpuMiner.Chain.PlainBlock
import BitcoinGpuMiner.Ledger.TipRun

/-! # Building valid chains

The header part of validity is checked by evaluation. What is left is the validity of the
transactions, which is immediate for blocks with a coinbase only.
-/

namespace BitcoinGpuMiner

open Foundation

set_option autoImplicit false

/-- The contents of a block are good or bad whatever the rest of its header is. -/
theorem checkBlockContents_blockOn (hashPrevBlock : Uint256) (vtx : List NetMessageTransaction) (nTime nNonce : UInt32) :
    checkBlockContents (blockOn hashPrevBlock vtx nTime nNonce) = checkBlockContents (blockOn Uint256.null vtx 0 0) := by
  have hSize : (blockOn hashPrevBlock vtx nTime nNonce).getSerializeSize =
      (blockOn Uint256.null vtx 0 0).getSerializeSize := by
    simp only [Block.getSerializeSize, Block.serialize, List.length_append, BlockHeader.length_serialize]
    rfl
  rw [checkBlockContents, checkBlockContents, hSize]
  rfl

/-- Blocks on top of each other with the given transactions and nonces. -/
def blocksOn (last : Uint256) : List (List NetMessageTransaction) → List UInt32 → List Block
  | vtx :: rows, nNonce :: nonces =>
    blockOn last vtx 1296688603 nNonce :: blocksOn (blockOn last vtx 1296688603 nNonce).getHash rows nonces
  | _, _ => []

theorem blocksOn_nil (last : Uint256) (rows : List (List NetMessageTransaction)) : blocksOn last rows [] = [] := by
  cases rows <;> rfl

theorem mem_blocksOn {last : Uint256} {rows : List (List NetMessageTransaction)} {nonces : List UInt32} {block : Block}
    (hMem : block ∈ blocksOn last rows nonces) :
    ∃ hashPrevBlock vtx nNonce, vtx ∈ rows ∧ block = blockOn hashPrevBlock vtx 1296688603 nNonce := by
  induction rows generalizing last nonces with
  | nil => cases nonces <;> cases hMem
  | cons vtx rows ih =>
    cases nonces with
    | nil => cases hMem
    | cons nNonce nonces =>
      rcases List.mem_cons.mp hMem with rfl | hMem
      · exact ⟨last, vtx, nNonce, List.mem_cons_self, rfl⟩
      · obtain ⟨hashPrevBlock, vtx', nNonce', hRow, hEq⟩ := ih hMem
        exact ⟨hashPrevBlock, vtx', nNonce', List.mem_cons_of_mem _ hRow, hEq⟩

/-- What the headers of a chain must satisfy above the blocks seen so far. -/
def headersOk (last : Uint256) (seen : List Uint256) : List Block → Bool
  | [] => true
  | block :: rest =>
    block.hashPrevBlock == last && !last.isNull && !seen.contains block.getHash && block.nBits == 0x207fffff &&
      checkProofOfWork block.getHash block.nBits && headersOk block.getHash (block.getHash :: seen) rest

structure HeaderOk (chain : List Block) (block : Block) : Prop where
  linked : chain.getLast?.map Block.getHash = some block.hashPrevBlock
  parentNotNull : block.hashPrevBlock ≠ Uint256.null
  fresh : block.getHash ∉ chain.map Block.getHash
  bits : block.nBits = 0x207fffff
  work : checkProofOfWork block.getHash block.nBits = true

theorem headerOk_of_headersOk {blocks : List Block} {last : Uint256} {seen : List Uint256} {chain : List Block}
    (hOk : headersOk last seen blocks = true) (hLast : chain.getLast?.map Block.getHash = some last)
    (hSeen : ∀ hash ∈ chain.map Block.getHash, hash ∈ seen) {before after : List Block} {block : Block}
    (hBlocks : blocks = before ++ block :: after) : HeaderOk (chain ++ before) block := by
  induction blocks generalizing last seen chain before with
  | nil => cases before <;> cases hBlocks
  | cons head rest ih =>
    simp only [headersOk, Bool.and_eq_true, Bool.not_eq_true', beq_iff_eq] at hOk
    obtain ⟨⟨⟨⟨⟨rfl, hNull⟩, hFresh⟩, hBits⟩, hWork⟩, hRest⟩ := hOk
    cases before with
    | nil =>
      cases hBlocks
      rw [List.append_nil]
      refine ⟨hLast, ?_, ?_, hBits, hWork⟩
      · intro hEq
        rw [(Uint256.isNull_iff _).mpr hEq] at hNull
        cases hNull
      · intro hMem
        rw [List.contains_eq_mem, decide_eq_false_iff_not] at hFresh
        exact hFresh (hSeen _ hMem)
    | cons _ before =>
      cases hBlocks
      rw [List.append_cons]
      refine ih hRest (by simp) ?_ rfl
      intro hash hMem
      rw [List.map_append, List.mem_append, List.map_singleton, List.mem_singleton] at hMem
      rcases hMem with hOld | rfl
      · exact List.mem_cons_of_mem _ (hSeen hash hOld)
      · exact List.mem_cons_self

theorem headerOk_of_genesis {blocks : List Block}
    (hOk : headersOk params.hashGenesisBlock [params.hashGenesisBlock] blocks = true) (before after : List Block)
    {block : Block} (hBlocks : blocks = before ++ block :: after) : HeaderOk ([getGenesisBlock] ++ before) block := by
  refine headerOk_of_headersOk hOk ?_ ?_ hBlocks
  · rw [List.getLast?_singleton, Option.map_some, getHash_getGenesisBlock]
  · intro hash hMem
    rw [List.map_singleton, getHash_getGenesisBlock] at hMem
    exact hMem

/-! The work of a long chain is checked stretch by stretch, each from a known hash to a known hash.
What a stretch leaves behind for the freshness of later hashes is a mark of each of its own. -/

def hashMark (hash : Uint256) : Nat := hash.val % 65536

/-- Linked blocks with enough work that lead from one hash to another, with the marks of their hashes. -/
def stretchOk (top : Uint256) : Uint256 → List Block → List Nat → Bool
  | last, [], [] => last == top
  | last, block :: rest, mark :: marks =>
    block.hashPrevBlock == last && !last.isNull && block.nBits == 0x207fffff &&
      checkProofOfWork block.getHash block.nBits && hashMark block.getHash == mark &&
        stretchOk top block.getHash rest marks
  | _, _, _ => false

theorem stretchOk_append {last middle top : Uint256} {blocks rest : List Block} {marks more : List Nat}
    (hFirst : stretchOk middle last blocks marks = true) (hRest : stretchOk top middle rest more = true) :
    stretchOk top last (blocks ++ rest) (marks ++ more) = true := by
  induction blocks generalizing last marks with
  | nil =>
    cases marks with
    | nil =>
      cases eq_of_beq hFirst
      exact hRest
    | cons mark marks => cases hFirst
  | cons block blocks ih =>
    cases marks with
    | nil => cases hFirst
    | cons mark marks =>
      simp only [List.cons_append, stretchOk, Bool.and_eq_true] at hFirst ⊢
      exact ⟨hFirst.1, ih hFirst.2⟩

theorem blocksOn_eq_append {last middle : Uint256} {marks : List Nat} (count : Nat)
    {rows : List (List NetMessageTransaction)} {nonces : List UInt32}
    (hFirst : stretchOk middle last (blocksOn last (rows.take count) (nonces.take count)) marks = true) :
    blocksOn last rows nonces =
      blocksOn last (rows.take count) (nonces.take count) ++ blocksOn middle (rows.drop count) (nonces.drop count) := by
  induction count generalizing last rows nonces marks with
  | zero =>
    cases marks with
    | nil =>
      cases eq_of_beq hFirst
      rfl
    | cons mark marks => cases hFirst
  | succ count ih =>
    cases rows with
    | nil => cases nonces <;> rfl
    | cons vtx rows =>
      cases nonces with
      | nil => rw [List.take_nil, List.drop_nil, blocksOn_nil, blocksOn_nil, blocksOn_nil, List.append_nil]
      | cons nNonce nonces =>
        cases marks with
        | nil => cases hFirst
        | cons mark marks =>
          simp only [List.take_succ_cons, List.drop_succ_cons, blocksOn, stretchOk, Bool.and_eq_true] at hFirst ⊢
          rw [ih hFirst.2, List.cons_append]

theorem stretchOk_blocksOn {last top : Uint256} {rows : List (List NetMessageTransaction)} {nonces : List UInt32}
    {marks : List Nat} (count : Nat) (middle : Uint256)
    (hFirst : stretchOk middle last (blocksOn last (rows.take count) (nonces.take count)) (marks.take count) = true)
    (hRest : stretchOk top middle (blocksOn middle (rows.drop count) (nonces.drop count)) (marks.drop count) = true) :
    stretchOk top last (blocksOn last rows nonces) marks = true := by
  rw [blocksOn_eq_append count hFirst, ← List.take_append_drop count marks]
  exact stretchOk_append hFirst hRest

theorem headersOk_of_stretchOk {last top : Uint256} {seen : List Uint256} {blocks : List Block} {marks : List Nat}
    (hOk : stretchOk top last blocks marks = true) (hMarks : marks.Nodup)
    (hSeen : ∀ hash ∈ seen, hashMark hash ∉ marks) : headersOk last seen blocks = true := by
  induction blocks generalizing last seen marks with
  | nil => rfl
  | cons block rest ih =>
    cases marks with
    | nil => cases hOk
    | cons mark marks =>
      simp only [stretchOk, Bool.and_eq_true, beq_iff_eq] at hOk
      obtain ⟨⟨⟨⟨⟨hLast, hNull⟩, hBits⟩, hWork⟩, rfl⟩, hRest⟩ := hOk
      obtain ⟨hNew, hMarks⟩ := List.nodup_cons.mp hMarks
      have hFresh : block.getHash ∉ seen := fun hMem => hSeen _ hMem List.mem_cons_self
      simp only [headersOk, Bool.and_eq_true, beq_iff_eq, Bool.not_eq_true', List.contains_eq_mem,
        decide_eq_false_iff_not]
      refine ⟨⟨⟨⟨⟨hLast, by simpa using hNull⟩, hFresh⟩, hBits⟩, hWork⟩, ih hRest hMarks ?_⟩
      intro hash hMem
      rcases List.mem_cons.mp hMem with rfl | hMem
      · exact hNew
      · exact fun hMark => hSeen hash hMem (List.mem_cons_of_mem _ hMark)

/-- Blocks that were checked from one hash to another, with the marks they leave. -/
structure Stretch (last top : Uint256) (blocks : List Block) where
  marks : List Nat
  ok : stretchOk top last blocks marks = true

section Growth

variable {verifyScript : VerifyScript} {rule : BlockRule} {chain : List Block} {block : Block}

theorem HeaderOk.follows (hHeader : HeaderOk chain block) (hContents : checkBlockContents block = true)
    (hValid : VtxValid verifyScript (ledgerOf chain) chain.length block.vtx) : Follows verifyScript chain block where
  linked := hHeader.linked
  parentNotNull := hHeader.parentNotNull
  fresh := hHeader.fresh
  ok := (blockOk_iff block).mpr ⟨hContents, hHeader.bits.trans proofOfWorkLimit_eq.symm, hHeader.work⟩
  valid := hValid

theorem ValidChain.append (hChain : ValidChain verifyScript rule chain) {blocks : List Block}
    (hFollows : ∀ before block after, blocks = before ++ block :: after →
      Follows verifyScript (chain ++ before) block ∧ rule (ledgerOf (chain ++ before)) (chain ++ before).length block) :
    ValidChain verifyScript rule (chain ++ blocks) := by
  induction blocks generalizing chain with
  | nil => rwa [List.append_nil]
  | cons block rest ih =>
    obtain ⟨hFirst, hRule⟩ := hFollows [] block rest rfl
    rw [List.append_nil] at hFirst hRule
    rw [List.append_cons]
    refine ih (hChain.extend hFirst hRule) ?_
    intro before next after hRest
    rw [List.append_assoc, List.singleton_append]
    exact hFollows (block :: before) next after (by rw [hRest, List.cons_append])

theorem vtxValid_cons_coinbase {tx : NetMessageTransaction} (hFormat : TxFormat tx) (hCoinBase : tx.isCoinBase = true)
    {ledger : Ledger} {height : Int} {rest : List NetMessageTransaction} (hRest : VtxValid verifyScript ledger height rest) :
    VtxValid verifyScript ledger height (tx :: rest) := by
  apply List.forall_mem_cons.mpr ⟨⟨hFormat, fun hNot => ?_⟩, hRest⟩
  cases hCoinBase.symm.trans hNot

theorem vtxValid_coinbase {tx : NetMessageTransaction} (hFormat : TxFormat tx) (hCoinBase : tx.isCoinBase = true)
    (ledger : Ledger) (height : Int) : VtxValid verifyScript ledger height [tx] :=
  vtxValid_cons_coinbase hFormat hCoinBase fun _ hNone => absurd hNone List.not_mem_nil

theorem getSerializeSize_plain_le (pt : OutPoint) {scriptSig : CScript} (hLength : scriptSig.length ≤ 100) (nValue : Int) :
    NetMessageTransaction.getSerializeSize ⟨[⟨pt, scriptSig, 0xffffffff, []⟩], [⟨nValue, [0x51]⟩], 1, 0⟩ ≤ 1000 := by
  have hCount := length_writeCompactSize_le 1
  have hScript := length_writeCompactSize_le scriptSig.length
  have hWitness : NetMessageTransaction.hasWitness
      ⟨[⟨pt, scriptSig, 0xffffffff, []⟩], [⟨nValue, [0x51]⟩], 1, 0⟩ = false := rfl
  rw [NetMessageTransaction.getSerializeSize, NetMessageTransaction.serialize, hWitness]
  simp only [Bool.false_and, Bool.false_eq_true, if_false, List.length_append, List.length_nil, length_writeInt,
    length_writeLE, length_writeVector, List.length_singleton, List.map_singleton, List.sum_singleton,
    TxIn.serialize, OutPoint.serialize, TxOut.serialize, length_writeBytes, Uint256.length_bytes]
  omega

theorem plainSize_le (pt : OutPoint) {scriptSig : CScript} (hLength : scriptSig.length ≤ 100) (nValue : Int) :
    NetMessageTransaction.getSerializeSize ⟨[⟨pt, scriptSig, 0xffffffff, []⟩], [⟨nValue, [0x51]⟩], 1, 0⟩ *
      witnessScaleFactor ≤ maxBlockWeight := by
  have hSize := getSerializeSize_plain_le pt hLength nValue
  rw [witnessScaleFactor, maxBlockWeight]
  omega

theorem txFormat_plainCoinbase {scriptSig : CScript} (hShort : 2 ≤ scriptSig.length) (hLong : scriptSig.length ≤ 100)
    {nValue : Int} (hRange : moneyRange nValue = true) : TxFormat (plainCoinbase scriptSig nValue) := by
  rw [moneyRange_iff] at hRange
  refine ⟨by simp [plainCoinbase], by simp [plainCoinbase], plainSize_le _ hLong nValue, ?_, ?_, ?_⟩
  · intro out hOut
    rw [List.mem_singleton.mp hOut]
    exact hRange.1
  · simpa [NetMessageTransaction.sumOut, plainCoinbase] using hRange.2
  · intro _ txIn hTxIn
    rw [List.mem_singleton.mp hTxIn]
    exact ⟨hShort, hLong⟩

theorem ValidChain.append_coinbases (hChain : ValidChain verifyScript BlockRule.any chain) {blocks : List Block}
    (hHeaders : ∀ before block after, blocks = before ++ block :: after → HeaderOk (chain ++ before) block)
    (hBlocks : ∀ block ∈ blocks, checkBlockContents block = true ∧
      ∃ tx, block.vtx = [tx] ∧ TxFormat tx ∧ tx.isCoinBase = true) :
    ValidChain verifyScript BlockRule.any (chain ++ blocks) := by
  apply hChain.append
  intro before block after hSplit
  obtain ⟨hContents, tx, hVtx, hFormat, hCoinBase⟩ := hBlocks block (by simp [hSplit])
  refine ⟨(hHeaders before block after hSplit).follows hContents ?_, trivial⟩
  rw [hVtx]
  exact vtxValid_coinbase hFormat hCoinBase _ _

section Spend

variable {pt : OutPoint} {nValue : Int} {ledger : Ledger} {idx : TxIdx} {out : TxOut} {scriptFlags : UInt32} {height : Int}

theorem isCoinBase_plainSpend (hPt : pt ≠ OutPoint.null) (nValue : Int) : (plainSpend pt nValue).isCoinBase = false := by
  rw [Bool.eq_false_iff]
  intro hCoinBase
  obtain ⟨txIn, hVin, hNull⟩ := (NetMessageTransaction.isCoinBase_iff _).mp hCoinBase
  cases hVin
  exact hPt hNull

theorem spends_plainSpend (hPt : pt ≠ OutPoint.null) (nValue : Int) : (plainSpend pt nValue).spends = [pt] := by
  rw [NetMessageTransaction.spends, isCoinBase_plainSpend hPt]
  rfl

theorem allInputsFound_plainSpend (hIdx : ledger.txIndex[pt.hashTransaction]? = some idx) (nValue : Int) :
    ledger.allInputsFound (plainSpend pt nValue) = true := by
  have hContains : ledger.txIndex.contains pt.hashTransaction = true := (contains_iff_exists ..).mpr ⟨idx, hIdx⟩
  rw [Ledger.allInputsFound, plainSpend, List.all_cons, hContains]
  rfl

theorem txOk_plainSpend (hPt : pt ≠ OutPoint.null) (hUnspent : ledger.utxo.Unspent pt)
    (hIdx : ledger.txIndex[pt.hashTransaction]? = some idx) (hOut : idx.tx.vout[pt.outPutIdx.toNat]? = some out)
    (hMature : idx.tx.isCoinBase = true → coinbaseMaturity ≤ height - idx.height) (hNonneg : 0 ≤ nValue)
    (hCovered : nValue ≤ out.nValue) (hMax : out.nValue ≤ maxMoney) : TxOk anyScript ledger scriptFlags height (plainSpend pt nValue) := by
  have hSpend := isCoinBase_plainSpend hPt nValue
  have hValue : ledger.value pt = out.nValue := by
    apply Ledger.value_of_output
    rw [Ledger.output, hIdx, Option.bind_some, hOut]
  have hSumIn : ledger.sumIn (plainSpend pt nValue) = out.nValue := by
    rw [← hValue]
    exact Int.add_zero _
  have hSumOut : (plainSpend pt nValue).sumOut = nValue := Int.add_zero _
  refine ⟨⟨by simp [plainSpend], by simp [plainSpend], plainSize_le pt (Nat.zero_le _) nValue, ?_, ?_, ?_⟩, ?_⟩
  · intro made hMade
    rw [List.mem_singleton.mp hMade]
    exact hNonneg
  · omega
  · intro hCoinBase
    cases hCoinBase.symm.trans hSpend
  · intro _
    refine ⟨?_, by simp [plainSpend], by omega, by omega⟩
    intro i txIn hGet
    obtain ⟨-, rfl⟩ : i = 0 ∧ (⟨pt, [], 0xffffffff, []⟩ : TxIn) = txIn := by
      cases i with
      | zero => exact ⟨rfl, Option.some.inj hGet⟩
      | succ i => cases hGet
    exact ⟨hPt, hUnspent, idx, out, hIdx, hOut, hMature,
      (moneyRange_iff _).mpr ⟨Int.le_trans hNonneg hCovered, hMax⟩, rfl⟩

/-- A coinbase stays unspent and keeps its place while other blocks follow that leave it alone. -/
theorem coinbase_kept (chain : List Block) {tx : NetMessageTransaction} (hVtx : block.vtx = [tx]) (hOut : tx.vout ≠ []) {more : List Block}
    (hMore : ∀ later ∈ more, ∀ other ∈ later.vtx, other.getHash ≠ tx.getHash ∧ ⟨tx.getHash, 0⟩ ∉ other.spends)
    (hPt : (⟨tx.getHash, 0⟩ : OutPoint) ≠ OutPoint.null) :
    (ledgerOf (chain ++ [block] ++ more)).utxo.Unspent ⟨tx.getHash, 0⟩ ∧
      (ledgerOf (chain ++ [block] ++ more)).txIndex[tx.getHash]? = some ⟨block.getHash, chain.length, tx⟩ := by
  obtain ⟨txs, hTxs, hAdded⟩ := exists_txsOfChain_append (chain ++ [block]) more
  have hOther : ∀ idx ∈ txs, idx.tx.getHash ≠ tx.getHash ∧ ⟨tx.getHash, 0⟩ ∉ idx.tx.spends := by
    intro idx hIdx
    obtain ⟨later, hLater, hTx⟩ := hAdded idx hIdx
    exact hMore later hLater idx.tx hTx
  have hBlock : txsOfChain (chain ++ [block]) = txsOfChain chain ++ [⟨block.getHash, chain.length, tx⟩] := by
    rw [txsOfChain_append_singleton, blockTxs, hVtx, List.map_singleton]
  have hMade : (⟨tx.getHash, 0⟩ : OutPoint) ∈ tx.outPoints := by
    have hLength : 0 < tx.vout.length := List.length_pos_iff.mpr hOut
    rw [NetMessageTransaction.outPoints, List.mem_map]
    exact ⟨0, List.mem_range.mpr hLength, by simp⟩
  constructor
  · rw [ledgerOf, Ledger.unspent_replay_iff _ hPt, hTxs, hBlock]
    apply UnspentIn.append
    · rw [unspentIn_append_singleton_iff]
      exact .inl hMade
    intro idx hIdx
    refine ⟨fun hMem => (hOther idx hIdx).1 ?_, (hOther idx hIdx).2⟩
    exact (NetMessageTransaction.hash_of_mem_outPoints hMem).symm
  · rw [ledgerOf, Ledger.replay_txIndex, hTxs, Ledger.lastTx_append fun idx hIdx => (hOther idx hIdx).1, hBlock]
    simp [Ledger.lastTx]

end Spend

end Growth

end BitcoinGpuMiner
