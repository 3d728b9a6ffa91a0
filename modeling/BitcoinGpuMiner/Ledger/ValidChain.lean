import BitcoinGpuMiner.Chain.Branches
import BitcoinGpuMiner.Chain.Contents
import BitcoinGpuMiner.Ledger.Replay

/-! # Valid chains

The abstract side of block acceptance: lists of blocks that grow from the genesis block one valid
block at a time. There are no tips, no index and no pool here.
-/

namespace BitcoinGpuMiner

set_option autoImplicit false

/-- A requirement on a block, given the ledger before it and its height. -/
abbrev BlockRule := Ledger → Int → Block → Prop

def BlockRule.any : BlockRule := fun _ _ _ => True

/-- What a block must satisfy to follow a chain. -/
structure Follows (verifyScript : VerifyScript) (chain : List Block) (block : Block) : Prop where
  linked : chain.getLast?.map Block.getHash = some block.hashPrevBlock
  parentNotNull : block.hashPrevBlock ≠ Uint256.null
  fresh : block.getHash ∉ chain.map Block.getHash
  ok : blockOk block = true
  valid : VtxValid verifyScript (ledgerOf chain) chain.length block.vtx

theorem Follows.contents {verifyScript : VerifyScript} {chain : List Block} {block : Block}
    (hFollows : Follows verifyScript chain block) : ContentsOk block :=
  (checkBlockContents_iff block).mp ((blockOk_iff block).mp hFollows.ok).1

theorem Follows.inputOk {verifyScript : VerifyScript} {chain : List Block} {block : Block}
    (hFollows : Follows verifyScript chain block) {tx : NetMessageTransaction} (hTx : tx ∈ block.vtx) {pt : OutPoint}
    (hPt : pt ∈ tx.spends) : ∃ i txIn, tx.vin[i]? = some txIn ∧ txIn.previousOutput = pt ∧
      InputOk verifyScript (ledgerOf chain) (scriptFlagsAt chain.length) chain.length tx i txIn := by
  rw [NetMessageTransaction.spends] at hPt
  split at hPt
  · cases hPt
  case isFalse hCoinBase =>
    rw [Bool.not_eq_true] at hCoinBase
    obtain ⟨txIn, hMem, hEq⟩ := List.mem_map.mp hPt
    obtain ⟨i, hGet⟩ := List.mem_iff_getElem?.mp hMem
    exact ⟨i, txIn, hGet, hEq, ((hFollows.valid tx hTx).spend hCoinBase).inputs i txIn hGet⟩

/-- The chains all of whose blocks are valid and obey `rule`. -/
inductive ValidChain (verifyScript : VerifyScript) (rule : BlockRule) : List Block → Prop where
  | genesis : ValidChain verifyScript rule [getGenesisBlock]
  | extend {chain : List Block} {block : Block} (hChain : ValidChain verifyScript rule chain)
      (hFollows : Follows verifyScript chain block) (hRule : rule (ledgerOf chain) chain.length block) :
      ValidChain verifyScript rule (chain ++ [block])

namespace ValidChain

variable {verifyScript : VerifyScript} {rule : BlockRule} {chain : List Block}

theorem follows_of_split (hChain : ValidChain verifyScript rule chain) {before after : List Block} {block : Block}
    (hSplit : chain = before ++ block :: after) : (before = [] ∧ block = getGenesisBlock) ∨
      (Follows verifyScript before block ∧ rule (ledgerOf before) before.length block) := by
  induction hChain generalizing after with
  | genesis =>
    rcases before with _ | ⟨head, before⟩
    · cases hSplit
      exact .inl ⟨rfl, rfl⟩
    · injection hSplit with _ hNil
      simp at hNil
  | extend hChain hFollows hRule ih =>
    rcases List.eq_nil_or_concat' after with rfl | ⟨after, last, rfl⟩
    · obtain ⟨rfl, hLast⟩ := List.append_inj' hSplit rfl
      cases hLast
      exact .inr ⟨hFollows, hRule⟩
    · rw [← List.cons_append, ← List.append_assoc] at hSplit
      exact ih (List.append_inj' hSplit rfl).1

/-- A rule that every block of a valid chain obeys may be asked for. -/
theorem of_split {rule' : BlockRule} (hChain : ValidChain verifyScript rule chain)
    (hRule : ∀ before block after, chain = before ++ block :: after → before ≠ [] →
      rule' (ledgerOf before) before.length block) : ValidChain verifyScript rule' chain := by
  induction hChain with
  | genesis => exact .genesis
  | @extend chain block hChain hFollows _ ih =>
    have hNonempty : chain ≠ [] := by
      rintro rfl
      cases hFollows.linked
    refine (ih ?_).extend hFollows (hRule chain block [] rfl hNonempty)
    rintro before earlier after rfl hBefore
    exact hRule before earlier (after ++ [block]) (by simp) hBefore

end ValidChain

end BitcoinGpuMiner
