import BitcoinGpuMiner.Foundation.FiniteSum
import BitcoinGpuMiner.Ledger.Soundness

/-! # Money supply

A block adds to the unspent total at most what its coinbase pays beyond the fees. The code never
compares the coinbase with the subsidy, so the bound on the total is a bound for blocks that keep
to the reward.
-/

namespace BitcoinGpuMiner

open Foundation

set_option autoImplicit false

namespace Ledger

def unspentKeys (ledger : Ledger) : List OutPoint :=
  ledger.utxo.keys.filter fun pt => (ledger.utxo.canUse pt).isSome

def totalUnspent (ledger : Ledger) : Int := (ledger.unspentKeys.map ledger.value).sum

def fee (ledger : Ledger) (tx : NetMessageTransaction) : Int :=
  if tx.isCoinBase then 0 else ledger.sumIn tx - tx.sumOut

def fees (ledger : Ledger) (vtx : List NetMessageTransaction) : Int := (vtx.map ledger.fee).sum

theorem mem_unspentKeys_iff (ledger : Ledger) (pt : OutPoint) : pt ∈ ledger.unspentKeys ↔ ledger.utxo.Unspent pt := by
  rw [unspentKeys, List.mem_filter, Std.ExtTreeMap.mem_keys, Option.isSome_iff_exists, UtxoSet.canUse_iff,
    and_iff_right_iff_imp]
  rintro ⟨entry, hEntry, -⟩
  rw [Std.ExtTreeMap.mem_iff_isSome_getElem?, hEntry, Option.isSome_some]

theorem unspentKeys_nodup (ledger : Ledger) : ledger.unspentKeys.Nodup :=
  Std.ExtTreeMap.nodup_keys.filter _

theorem totalUnspent_eq (ledger : Ledger) : ledger.totalUnspent = ∑ pt ∈ ledger.unspentKeys.toFinset, ledger.value pt :=
  (List.sum_toFinset ledger.value ledger.unspentKeys_nodup).symm

end Ledger

/-- The coinbase stays within the subsidy, and no spending transaction but the last pays a fee. -/
structure KeepsReward (ledger : Ledger) (height : Int) (block : Block) : Prop where
  coinbase : ∀ tx ∈ block.vtx, tx.isCoinBase = true → tx.sumOut ≤ getBlockSubsidy height
  lastFee : ∀ before tx after, block.vtx = before ++ tx :: after → after ≠ [] → ledger.fee tx = 0

section Fees

variable (ledger : Ledger)

/-- The tally is overwritten, so it ends as the fee of the last spending transaction. -/
theorem nFees_eq_zero (vtx : List NetMessageTransaction) (result : CheckTransactionResult) (hResult : result.nFees = 0)
    (hZero : ∀ tx ∈ vtx, ledger.fee tx = 0) :
    (vtx.foldl (fun result tx => ledger.resultAfter tx result) result).nFees = 0 := by
  induction vtx generalizing result with
  | nil => exact hResult
  | cons tx vtx ih =>
    refine ih _ ?_ fun other hOther => hZero other (List.mem_cons_of_mem _ hOther)
    have hTx := hZero tx List.mem_cons_self
    rw [Ledger.fee] at hTx
    change (if tx.isCoinBase then result.nFees else ledger.sumIn tx - tx.sumOut) = 0
    split
    case isTrue => exact hResult
    case isFalse hCoinBase => rwa [if_neg hCoinBase] at hTx

theorem nFees_eq_fees (vtx : List NetMessageTransaction)
    (hLast : ∀ before tx after, vtx = before ++ tx :: after → after ≠ [] → ledger.fee tx = 0) :
    (vtx.foldl (fun result tx => ledger.resultAfter tx result) ⟨0, 0⟩).nFees = ledger.fees vtx := by
  rcases List.eq_nil_or_concat' vtx with rfl | ⟨init, last, rfl⟩
  · rfl
  have hZero : ∀ tx ∈ init, ledger.fee tx = 0 := by
    intro tx hTx
    obtain ⟨before, after, rfl⟩ := List.append_of_mem hTx
    exact hLast before tx (after ++ [last]) (by simp) (by simp)
  have hInit : ledger.fees init = 0 := by
    rw [Ledger.fees]
    apply List.sum_eq_zero
    intro x hx
    obtain ⟨tx, hTx, rfl⟩ := List.mem_map.mp hx
    exact hZero tx hTx
  have hTally := nFees_eq_zero ledger init ⟨0, 0⟩ rfl hZero
  rw [List.foldl_append, List.foldl_cons, List.foldl_nil, Ledger.fees, List.map_append, List.sum_append,
    ← Ledger.fees, hInit, List.map_singleton, List.sum_singleton, Int.zero_add, Ledger.fee, Ledger.resultAfter]
  dsimp only
  rw [hTally]

end Fees

section Block

variable {verifyScript : VerifyScript} {rule : BlockRule} {chain : List Block} {block : Block}

/-- A valid transaction does not pay out more than it takes. -/
theorem Follows.fees_nonneg (hFollows : Follows verifyScript chain block) : 0 ≤ (ledgerOf chain).fees block.vtx := by
  rw [Ledger.fees]
  apply List.sum_nonneg
  intro x hx
  obtain ⟨tx, hTx, rfl⟩ := List.mem_map.mp hx
  rw [Ledger.fee]
  split
  case isTrue => exact Int.le_refl 0
  case isFalse hSpend =>
    have hCovered := ((hFollows.valid tx hTx).spend (Bool.eq_false_iff.mpr hSpend)).covered
    omega

/-- So a coinbase within the subsidy is within the reward. -/
theorem Follows.coinbase_le (hFollows : Follows verifyScript chain block)
    (hReward : KeepsReward (ledgerOf chain) chain.length block) {tx : NetMessageTransaction} (hTx : tx ∈ block.vtx)
    (hCoinBase : tx.isCoinBase = true) :
    tx.sumOut ≤ getBlockSubsidy chain.length + (ledgerOf chain).fees block.vtx := by
  have hSubsidy := hReward.coinbase tx hTx hCoinBase
  have hFees := hFollows.fees_nonneg
  omega

theorem ValidChain.outNonneg (hChain : ValidChain verifyScript rule chain) :
    ∀ idx ∈ txsOfChain chain, ∀ out ∈ idx.tx.vout, 0 ≤ out.nValue := by
  induction hChain with
  | genesis =>
    intro idx hIdx out hOut
    cases List.mem_singleton.mp hIdx
    cases List.mem_singleton.mp hOut
    decide
  | extend _ hFollows _ ih =>
    intro idx hIdx
    rw [txsOfChain_append_singleton, List.mem_append] at hIdx
    rcases hIdx with hOld | hNew
    · exact ih idx hOld
    · obtain ⟨tx, hTx, rfl⟩ := List.mem_map.mp hNew
      exact (hFollows.valid tx hTx).format.outNonneg

theorem ValidChain.value_nonneg (hChain : ValidChain verifyScript rule chain) (pt : OutPoint) :
    0 ≤ (ledgerOf chain).value pt := by
  rw [Ledger.value, output_ledgerOf, outputIn]
  cases hLast : Ledger.lastTx (txsOfChain chain) pt.hashTransaction with
  | none => exact Int.le_refl 0
  | some idx =>
    cases hOut : idx.tx.vout[pt.outPutIdx.toNat]? with
    | none => simp [hOut]
    | some out =>
      have hMem : idx ∈ txsOfChain chain := List.mem_reverse.mp (List.mem_of_find?_eq_some hLast)
      simpa [hOut] using hChain.outNonneg idx hMem out (List.mem_of_getElem? hOut)

theorem Follows.value_of_block (hFollows : Follows verifyScript chain block) {tx : NetMessageTransaction}
    (hTx : tx ∈ block.vtx) {pt : OutPoint} (hPt : pt.hashTransaction = tx.getHash) :
    (ledgerOf (chain ++ [block])).value pt = ((tx.vout.map TxOut.nValue)[pt.outPutIdx.toNat]?).getD 0 := by
  obtain ⟨before, after, hVtx⟩ := List.append_of_mem hTx
  have hNodup := hFollows.contents.vtx.txidsNodup
  rw [hVtx, List.map_append, List.map_cons, List.nodup_append, List.nodup_cons] at hNodup
  have hLast : Ledger.lastTx (txsOfChain (chain ++ [block])) tx.getHash = some ⟨block.getHash, chain.length, tx⟩ := by
    rw [txsOfChain_append_singleton, blockTxs, hVtx, List.map_append, List.map_cons, ← List.append_assoc,
      List.append_cons, Ledger.lastTx_append]
    · exact Ledger.lastTx_append_singleton_self ..
    · intro idx hIdx hEq
      obtain ⟨other, hOther, rfl⟩ := List.mem_map.mp hIdx
      exact hNodup.2.1.1 (hEq ▸ List.mem_map_of_mem hOther)
  rw [Ledger.value, output_ledgerOf, outputIn, hPt, hLast, Option.bind_some, List.getElem?_map]
  cases tx.vout[pt.outPutIdx.toNat]? <;> rfl

/-- Everything else that is unspent was so before, at the same amount, and the block does not spend it. -/
theorem kept_of_unspent {pt : OutPoint}
    (hUnspent : (ledgerOf (chain ++ [block])).utxo.Unspent pt)
    (hPt : pt.hashTransaction ∉ block.vtx.map NetMessageTransaction.getHash) :
    (ledgerOf chain).utxo.Unspent pt ∧ pt ∉ block.vtx.flatMap NetMessageTransaction.spends ∧
      (ledgerOf (chain ++ [block])).value pt = (ledgerOf chain).value pt := by
  have hOther : ∀ idx ∈ blockTxs chain.length block, idx.tx.getHash ≠ pt.hashTransaction := by
    intro idx hIdx hEq
    obtain ⟨tx, hTx, rfl⟩ := List.mem_map.mp hIdx
    exact hPt (hEq ▸ List.mem_map_of_mem hTx)
  have hNull : pt ≠ OutPoint.null := by
    rintro rfl
    obtain ⟨entry, hEntry, -⟩ := hUnspent
    rw [ledgerOf, Ledger.lookup_null_replay] at hEntry
    cases hEntry
  have hMade : ∀ idx ∈ blockTxs chain.length block, pt ∉ idx.tx.outPoints := by
    intro idx hIdx hMem
    exact hOther idx hIdx (NetMessageTransaction.hash_of_mem_outPoints hMem).symm
  obtain ⟨entry, hEntry, hUsed⟩ := hUnspent
  rw [ledgerOf, txsOfChain_append_singleton, Ledger.replay_append, Ledger.lookup_foldl_record _ _ hNull hMade] at hEntry
  change (if pt ∈ spendsOf (blockTxs chain.length block) then _ else _) = some entry at hEntry
  rw [spendsOf_blockTxs] at hEntry
  have hValue : (ledgerOf (chain ++ [block])).value pt = (ledgerOf chain).value pt := by
    rw [Ledger.value, Ledger.value, output_ledgerOf, output_ledgerOf, outputIn, outputIn,
      txsOfChain_append_singleton, Ledger.lastTx_append hOther]
  split at hEntry
  case isTrue =>
    obtain ⟨old, -, rfl⟩ := Option.map_eq_some_iff.mp hEntry
    cases hUsed
  case isFalse hSpent => exact ⟨⟨entry, hEntry, hUsed⟩, hSpent, hValue⟩

theorem Follows.made_le (hFollows : Follows verifyScript chain block) (keys : Finset OutPoint)
    (hNonneg : ∀ pt, 0 ≤ (ledgerOf (chain ++ [block])).value pt) :
    ∑ pt ∈ keys with pt.hashTransaction ∈ block.vtx.map NetMessageTransaction.getHash,
      (ledgerOf (chain ++ [block])).value pt ≤ (block.vtx.map NetMessageTransaction.sumOut).sum := by
  refine sum_labels_le OutPoint.hashTransaction keys _ (fun pt _ => hNonneg pt) block.vtx
    NetMessageTransaction.getHash NetMessageTransaction.sumOut ?_
  intro tx hTx
  have hOutNonneg : ∀ x ∈ tx.vout.map TxOut.nValue, 0 ≤ x := by
    intro x hx
    obtain ⟨out, hOut, rfl⟩ := List.mem_map.mp hx
    exact (hFollows.valid tx hTx).format.outNonneg out hOut
  calc ∑ pt ∈ keys with pt.hashTransaction = tx.getHash, (ledgerOf (chain ++ [block])).value pt
      = ∑ pt ∈ keys with pt.hashTransaction = tx.getHash,
          ((tx.vout.map TxOut.nValue)[pt.outPutIdx.toNat]?).getD 0 := by
        apply Finset.sum_congr rfl
        intro pt hPt
        exact hFollows.value_of_block hTx (Finset.mem_filter.mp hPt).2
    _ ≤ tx.sumOut := by
        refine sum_getElem_le _ hOutNonneg _ (fun pt : OutPoint => pt.outPutIdx.toNat) ?_
        intro pt hPt other hOther hIndex
        rw [Finset.mem_coe, Finset.mem_filter] at hPt hOther
        cases pt
        cases other
        rw [OutPoint.mk.injEq]
        exact ⟨hPt.2.trans hOther.2.symm, UInt32.toNat_inj.mp hIndex⟩

theorem sum_spends (ledger : Ledger) {vtx : List NetMessageTransaction} (hSpend : ∀ tx ∈ vtx, tx.isCoinBase = false) :
    ((vtx.flatMap NetMessageTransaction.spends).map ledger.value).sum =
      ledger.fees vtx + (vtx.map NetMessageTransaction.sumOut).sum := by
  induction vtx with
  | nil => rfl
  | cons tx vtx ih =>
    have hTx := hSpend tx List.mem_cons_self
    have hRest := ih fun other hOther => hSpend other (List.mem_cons_of_mem _ hOther)
    have hSpends : (tx.spends.map ledger.value).sum = ledger.sumIn tx := by
      rw [NetMessageTransaction.spends, hTx, if_neg Bool.false_ne_true, List.map_map]
      rfl
    have hFee : ledger.fee tx = ledger.sumIn tx - tx.sumOut := by
      rw [Ledger.fee, hTx, if_neg Bool.false_ne_true]
    rw [List.flatMap_cons, List.map_append, List.sum_append, hSpends, hRest, Ledger.fees, Ledger.fees,
      List.map_cons, List.sum_cons, List.map_cons, List.sum_cons, hFee]
    omega

theorem Follows.total_le (hFollows : Follows verifyScript chain block) (hChain : ValidChain verifyScript KeepsReward chain)
    (hReward : KeepsReward (ledgerOf chain) chain.length block) :
    (ledgerOf (chain ++ [block])).totalUnspent ≤ (ledgerOf chain).totalUnspent + getBlockSubsidy chain.length := by
  obtain ⟨coinbase, rest, hVtx, hCoinBase, hRest⟩ := hFollows.sound.coinbase
  have hStep : ∑ pt ∈ (ledgerOf (chain ++ [block])).unspentKeys.toFinset, (ledgerOf (chain ++ [block])).value pt +
      ∑ pt ∈ (block.vtx.flatMap NetMessageTransaction.spends).toFinset, (ledgerOf chain).value pt ≤
      ∑ pt ∈ (ledgerOf chain).unspentKeys.toFinset, (ledgerOf chain).value pt +
        ∑ pt ∈ (ledgerOf (chain ++ [block])).unspentKeys.toFinset with
          pt.hashTransaction ∈ block.vtx.map NetMessageTransaction.getHash,
          (ledgerOf (chain ++ [block])).value pt := by
    refine sum_step_le _ (fun pt _ => hChain.value_nonneg pt) ?_ ?_
    · intro pt hPt
      rw [List.mem_toFinset] at hPt ⊢
      exact (Ledger.mem_unspentKeys_iff ..).mpr (hFollows.spent_unspent hPt).2
    · intro pt hPt hNot
      rw [List.mem_toFinset, Ledger.mem_unspentKeys_iff] at hPt
      obtain ⟨hUnspent, hSpent, hValue⟩ := kept_of_unspent hPt hNot
      refine ⟨?_, ?_, hValue⟩
      · rw [List.mem_toFinset, Ledger.mem_unspentKeys_iff]
        exact hUnspent
      · rw [List.mem_toFinset]
        exact hSpent
  have hMade := hFollows.made_le (ledgerOf (chain ++ [block])).unspentKeys.toFinset
    (hChain.extend hFollows hReward).value_nonneg
  rw [← Ledger.totalUnspent_eq, ← Ledger.totalUnspent_eq,
    List.sum_toFinset (ledgerOf chain).value hFollows.spends_nodup] at hStep
  have hSpends : ((block.vtx.flatMap NetMessageTransaction.spends).map (ledgerOf chain).value).sum + coinbase.sumOut =
      (ledgerOf chain).fees block.vtx + (block.vtx.map NetMessageTransaction.sumOut).sum := by
    have hNone : coinbase.spends = [] := by rw [NetMessageTransaction.spends, hCoinBase, if_pos rfl]
    have hFee : (ledgerOf chain).fee coinbase = 0 := by rw [Ledger.fee, hCoinBase, if_pos rfl]
    have hOthers := sum_spends (ledgerOf chain) hRest
    rw [Ledger.fees] at hOthers
    rw [hVtx, List.flatMap_cons, hNone, List.nil_append, Ledger.fees, List.map_cons, List.sum_cons, List.map_cons,
      List.sum_cons, hFee, hOthers]
    omega
  have hPaid := hFollows.coinbase_le hReward (by rw [hVtx]; exact List.mem_cons_self) hCoinBase
  omega

theorem ValidChain.total_le (hChain : ValidChain verifyScript KeepsReward chain) :
    (ledgerOf chain).totalUnspent ≤ ((List.range chain.length).map fun height : Nat => getBlockSubsidy height).sum := by
  induction hChain with
  | genesis =>
    rw [Node.ledgerOf_genesis]
    decide +kernel
  | extend hChain hFollows hReward ih =>
    have hStep := hFollows.total_le hChain hReward
    rw [List.length_append, List.length_singleton, List.range_succ, List.map_append, List.sum_append,
      List.map_singleton, List.sum_singleton]
    omega

end Block

namespace Node

/-- In a run whose blocks keep to the reward, every coinbase is bounded, the tally is the total of
the fees, and the unspent total is bounded by the subsidies. -/
theorem supply_bounded_of_keepsReward {verifyScript : VerifyScript} {node : Node}
    (hRun : TipRun verifyScript KeepsReward node) :
    (∀ before block after, node.activeBlocks = before ++ block :: after → before ≠ [] →
      (∀ tx ∈ block.vtx, tx.isCoinBase = true →
        tx.sumOut ≤ getBlockSubsidy before.length + (ledgerOf before).fees block.vtx) ∧
      ∃ result, checkTransactions verifyScript (ledgerOf before) (scriptFlagsAt before.length) before.length none
        block.vtx = .ok (some result) ∧ result.nFees = (ledgerOf before).fees block.vtx) ∧
    node.ledger.totalUnspent ≤
      ((List.range node.activeBlocks.length).map fun height : Nat => getBlockSubsidy height).sum := by
  have hRefines := hRun.refines
  constructor
  · intro before block after hSplit hNonempty
    rcases hRefines.valid.follows_of_split hSplit with ⟨hNil, -⟩ | ⟨hFollows, hReward⟩
    · exact absurd hNil hNonempty
    · exact ⟨fun _ hTx hCoinBase => hFollows.coinbase_le hReward hTx hCoinBase, _,
        (checkTransactions_eq_some_iff ..).mpr ⟨hFollows.valid, rfl⟩,
        nFees_eq_fees _ _ hReward.lastFee⟩
  · rw [hRefines.ledger]
    exact hRefines.valid.total_le

end Node

namespace Payments

open Revival

theorem getBlockSubsidy_of_lt {height : Nat} (hHeight : height < 150) : getBlockSubsidy height = 50 * coin := by
  have hInt : toInt32 height = height := by
    rw [toInt32, Int.bmod_eq_of_le]
    · omega
    · omega
  have hHalvings : (height : Int).tdiv params.nSubsidyHalvingInterval = 0 :=
    Int.tdiv_eq_zero_of_lt (Int.natCast_nonneg _) (by rw [show params.nSubsidyHalvingInterval = 150 from rfl]; omega)
  rw [getBlockSubsidy, hInt, hHalvings]
  rfl

/-- A coinbase and at most one more transaction. -/
theorem keepsReward_of_plain {ledger : Ledger} {height : Nat} {block : Block} {coinbase : NetMessageTransaction}
    {rest : List NetMessageTransaction} (hHeight : height < 150) (hVtx : block.vtx = coinbase :: rest)
    (hCoinBase : coinbase.isCoinBase = true) (hPaid : coinbase.sumOut = 50 * coin) (hLength : rest.length ≤ 1)
    (hRest : ∀ tx ∈ rest, tx.isCoinBase = false) : KeepsReward ledger height block := by
  constructor
  · intro tx hTx hIs
    rw [hVtx] at hTx
    rcases List.mem_cons.mp hTx with rfl | hOther
    · rw [getBlockSubsidy_of_lt hHeight]
      exact Int.le_of_eq hPaid
    · cases hIs.symm.trans (hRest tx hOther)
  · intro before tx after hSplit hAfter
    rw [hVtx] at hSplit
    cases before with
    | nil =>
      cases hSplit
      rw [Ledger.fee, hCoinBase, if_pos rfl]
    | cons head before =>
      rw [List.cons_append] at hSplit
      obtain ⟨-, rfl⟩ := List.cons.inj hSplit
      rw [List.length_append, List.length_cons] at hLength
      exact absurd (List.length_eq_zero_iff.mp (by omega)) hAfter

theorem valid_keepsReward : ValidChain anyScript KeepsReward chain := by
  have hFirst : first.isCoinBase = false := isCoinBase_plainSpend paid_ne.2.2 _
  have hSecond : second.isCoinBase = false := isCoinBase_plainSpend hashes.1 _
  refine valid ?_ ?_ ?_
  · intro before block after hSplit
    have hMem : block ∈ firstPart := by simp [hSplit]
    have hLength : before.length + 1 < 150 := by
      have hAll : firstPart.length = 100 := rfl
      rw [hSplit, List.length_append, List.length_cons] at hAll
      omega
    have hNone : ∀ tx ∈ ([] : List NetMessageTransaction), tx.isCoinBase = false := fun _ hNil => absurd hNil List.not_mem_nil
    rcases vtx_of_mem_firstPart hMem with hVtx | hVtx
    · exact keepsReward_of_plain hLength hVtx rfl rfl (Nat.zero_le _) hNone
    · exact keepsReward_of_plain hLength hVtx rfl rfl (Nat.zero_le _) hNone
  · refine keepsReward_of_plain (by decide : 101 < 150) rfl rfl rfl (Nat.le_refl _) ?_
    intro tx hTx
    rw [List.mem_singleton.mp hTx]
    exact hFirst
  · refine keepsReward_of_plain (by decide : 102 < 150) rfl rfl rfl (Nat.le_refl _) ?_
    intro tx hTx
    rw [List.mem_singleton.mp hTx]
    exact hSecond

theorem fees_plain (ledger : Ledger) {pt : OutPoint} {out : TxOut} (scriptSig : CScript) (hPt : pt ≠ OutPoint.null)
    (hOutput : ledger.output pt = some out) (nValue : Int) :
    ledger.fees [plainCoinbase scriptSig (50 * coin), plainSpend pt nValue] = out.nValue - nValue := by
  have hCoinbase : ledger.fee (plainCoinbase scriptSig (50 * coin)) = 0 := by
    rw [Ledger.fee, isCoinBase_plainCoinbase, if_pos rfl]
  have hSpend : ledger.fee (plainSpend pt nValue) = ledger.value pt + 0 - (nValue + 0) := by
    rw [Ledger.fee, isCoinBase_plainSpend hPt, if_neg Bool.false_ne_true]
    rfl
  rw [Ledger.fees, List.map_cons, List.map_cons, List.map_nil, List.sum_cons, List.sum_cons, List.sum_nil, hCoinbase,
    hSpend, Ledger.value_of_output hOutput]
  omega

theorem fees_secondBlock :
    (ledgerOf ([getGenesisBlock] ++ firstPart ++ [firstBlock])).fees secondBlock.vtx = coin := by
  have hOutput : (ledgerOf ([getGenesisBlock] ++ firstPart ++ [firstBlock])).output change = some ⟨49 * coin, [0x51]⟩ := by
    rw [Ledger.output, show change.hashTransaction = first.getHash from rfl,
      (change_kept ([getGenesisBlock] ++ firstPart)).2]
    rfl
  exact (fees_plain _ _ hashes.1 hOutput _).trans (by decide)

end Payments

namespace Node

theorem supply_bounded_of_payments : ∃ (node : Node) (before : List Block) (block : Block),
    TipRun anyScript KeepsReward node ∧ node.activeBlocks = before ++ [block] ∧
      (ledgerOf before).fees block.vtx = coin ∧
      (∀ tx ∈ block.vtx, tx.isCoinBase = true →
        tx.sumOut ≤ getBlockSubsidy before.length + (ledgerOf before).fees block.vtx) ∧
      (∃ result, checkTransactions anyScript (ledgerOf before) (scriptFlagsAt before.length) before.length none
        block.vtx = .ok (some result) ∧ result.nFees = coin) ∧
      node.ledger.totalUnspent ≤
        ((List.range node.activeBlocks.length).map fun height : Nat => getBlockSubsidy height).sum := by
  obtain ⟨node, hRun, hHolds⟩ := exists_tipRun Payments.valid_keepsReward
  obtain ⟨hBlocks, hTotal⟩ := supply_bounded_of_keepsReward hRun
  have hSplit : node.activeBlocks = [getGenesisBlock] ++ Revival.firstPart ++ [Payments.firstBlock] ++ [Payments.secondBlock] :=
    hHolds.blocks
  obtain ⟨hCoinbase, result, hChecked, hFees⟩ := hBlocks _ _ [] hSplit (by simp)
  rw [Payments.fees_secondBlock] at hFees
  exact ⟨node, _, _, hRun, hSplit, Payments.fees_secondBlock, hCoinbase, ⟨result, hChecked, hFees⟩, hTotal⟩

/-- A coinbase of one coin more than the subsidy is accepted. -/
theorem exists_excess_coinbase : ∃ (verifyScript : VerifyScript) (node : Node),
    TipRun verifyScript BlockRule.any node ∧
    (∃ before block after, node.activeBlocks = before ++ block :: after ∧ before ≠ [] ∧
      ∃ tx ∈ block.vtx, tx.isCoinBase = true ∧
        getBlockSubsidy before.length + (ledgerOf before).fees block.vtx < tx.sumOut) ∧
    ((List.range node.activeBlocks.length).map fun height : Nat => getBlockSubsidy height).sum <
      node.ledger.totalUnspent := by
  let tx : NetMessageTransaction := plainCoinbase [1, 0] (51 * coin)
  let block : Block := blockOn params.hashGenesisBlock [tx] 1296688603 1
  have hHeaders : headersOk params.hashGenesisBlock [params.hashGenesisBlock] [block] = true := by decide +kernel
  have hHeader : HeaderOk [getGenesisBlock] block := headerOk_of_genesis hHeaders [] [] rfl
  have hFollows : Follows anyScript [getGenesisBlock] block := hHeader.follows (by decide +kernel)
    (vtxValid_coinbase (txFormat_plainCoinbase (by decide) (by decide) (by decide)) rfl _ _)
  have hChain : ValidChain anyScript BlockRule.any ([getGenesisBlock] ++ [block]) :=
    ValidChain.genesis.extend hFollows trivial
  obtain ⟨node, hRun, hHolds⟩ := exists_tipRun hChain
  refine ⟨anyScript, node, hRun, ⟨[getGenesisBlock], block, [], hHolds.blocks, by simp, tx, ?_, rfl, ?_⟩, ?_⟩
  · exact List.mem_singleton_self _
  · decide
  · rw [hRun.refines.ledger, hHolds.blocks]
    decide +kernel

end Node

end BitcoinGpuMiner
