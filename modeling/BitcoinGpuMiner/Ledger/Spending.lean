import BitcoinGpuMiner.Ledger.Soundness
import BitcoinGpuMiner.Script.Locks
import BitcoinGpuMiner.Script.SignedData

/-! # Coins move with their keys

The chain of a run, with `VerifyScript` as it is: an output to the hash of a key is spent by a signature of a key with
that hash, and the signature is for the spend it stands in.
-/

namespace BitcoinGpuMiner

set_option autoImplicit false

open CScript Foundation ScriptValidation

/-- The checker for an input, as `CheckTransaction` makes it. -/
def inputChecker (curve : Secp256k1) (tx : NetMessageTransaction) (nIn : Fin tx.vin.length) (amount : Int) :
    TransactionSignatureChecker :=
  ⟨curve, tx, nIn, amount, some (PrecomputedTransactionData.ofTransaction tx)⟩

/-- A signature with its hash type that the curve library accepts for a spend. -/
structure SignedBy (curve : Secp256k1) (signed : SignedInput) (vchPubKey sig : Bytes) : Prop where
  valid : CPubKey.isValid vchPubKey = true
  verified : ∃ sighash, signed.hash = some sighash ∧ CPubKey.verify curve vchPubKey sighash sig = .ok true

theorem verifyScriptWith_iff (curve : Secp256k1) {tx : NetMessageTransaction} (nIn : Fin tx.vin.length)
    (scriptSig scriptPubKey : CScript) (witness : List Bytes) (flags : UInt32) (amount : Int) :
    verifyScriptWith curve scriptSig scriptPubKey witness flags tx nIn amount = true ↔
      Verify.Gives (verifyScript flags (inputChecker curve tx nIn amount).toBase scriptSig scriptPubKey witness) () := by
  rw [verifyScriptWith, dif_pos nIn.isLt, Verify.Gives, inputChecker]
  dsimp only
  constructor
  · intro hTrue
    split at hTrue
    case h_1 checks hOk => exact ⟨checks, hOk⟩
    case h_2 => cases hTrue
  · rintro ⟨checks, hOk⟩
    rw [hOk]

theorem checkSig_witness (curve : Secp256k1) {tx : NetMessageTransaction} (nIn : Fin tx.vin.length) (amount : Int)
    {vchSig vchPubKey : Bytes} {scriptCode : CScript}
    (hTrue : (inputChecker curve tx nIn amount).checkSig vchSig vchPubKey scriptCode .witnessV0 = true) :
    ∃ sig nHashType, vchSig = sig ++ [nHashType] ∧ SignedBy curve ⟨scriptCode, tx, nIn, nHashType, amount⟩ vchPubKey sig := by
  rw [TransactionSignatureChecker.checkSig] at hTrue
  split at hTrue
  case isTrue => cases hTrue
  case isFalse hValid =>
    split at hTrue
    case h_1 => cases hTrue
    case h_2 nHashType hLast =>
      split at hTrue
      case h_1 => cases hTrue
      case h_2 sighash hHash =>
        split at hTrue
        case h_2 => cases hTrue
        case h_1 valid hVerify =>
          cases hTrue
          exact ⟨vchSig.dropLast, nHashType, (List.dropLast_append_getLast? nHashType hLast).symm, by simpa using hValid,
            sighash, hHash, hVerify⟩

/-- An input that spends an output to a key hash by its witness. -/
structure KeyMoves (curve : Secp256k1) (tx : NetMessageTransaction) (nIn : Fin tx.vin.length) (amount : Int)
    (hash : Hash160) : Prop where
  scriptSig : (tx.vin.get nIn).scriptSig = []
  signed : ∃ sig nHashType vchPubKey, (tx.vin.get nIn).scriptWitness = [sig ++ [nHashType], vchPubKey] ∧
    hash160 vchPubKey = hash ∧ SignedBy curve ⟨payToPubKeyHash hash, tx, nIn, nHashType, amount⟩ vchPubKey sig

theorem keyMoves_of_verifyScript {curve : Secp256k1} {tx : NetMessageTransaction} {nIn : Fin tx.vin.length} {amount : Int}
    {hash : Hash160} {height : Int}
    (hScript : verifyScriptWith curve (tx.vin.get nIn).scriptSig (Lock.witness ⟨hash, .inl hash.property⟩).script
      (tx.vin.get nIn).scriptWitness (scriptFlagsAt height) tx nIn amount = true) :
    KeyMoves curve tx nIn amount hash := by
  rw [verifyScriptWith_iff, opened_iff (blockFlags_scriptFlagsAt height)] at hScript
  obtain ⟨hEmpty, -, hUnlocks⟩ := hScript
  rcases hUnlocks rfl with ⟨-, vchSig, vchPubKey, hWitness, -, -, hHash, hChecks⟩ | ⟨hLength, -⟩
  · obtain ⟨scriptCode, hCode, hAnswer⟩ := hChecks.answer
    have hSame : scriptCode = payToPubKeyHash hash := by
      rw [Env.dropSignature, if_neg (show ¬ SigVersion.witnessV0 = SigVersion.base by decide)] at hCode
      cases congrFun hCode (Machine.start [] [] 0)
      rfl
    rw [hSame] at hAnswer
    obtain ⟨sig, nHashType, hSig, hSigned⟩ := checkSig_witness curve nIn amount hAnswer
    exact ⟨hEmpty, sig, nHashType, vchPubKey, by rw [hWitness, hSig], hHash, hSigned⟩
  · exact absurd (hash.property.symm.trans hLength) (by decide)

/-! A chain with such a spend: a coin that anybody may take is paid to a key hash and then moved by the key, under a curve
library that accepts every signature. -/

namespace KeyChain

section Spend

variable {verifyScript : VerifyScript} {ledger : Ledger} {scriptFlags : UInt32} {height : Int} {txIn : TxIn}
  {made out : TxOut} {idx : TxIdx}

theorem txOk_oneInput (hPt : txIn.previousOutput ≠ OutPoint.null) (hUnspent : ledger.utxo.Unspent txIn.previousOutput)
    (hIdx : ledger.txIndex[txIn.previousOutput.hashTransaction]? = some idx)
    (hOut : idx.tx.vout[txIn.previousOutput.outPutIdx.toNat]? = some out)
    (hMature : idx.tx.isCoinBase = true → coinbaseMaturity ≤ height - idx.height) (hNonneg : 0 ≤ made.nValue)
    (hCovered : made.nValue ≤ out.nValue) (hMax : out.nValue ≤ maxMoney)
    (hSize : NetMessageTransaction.getSerializeSize ⟨[txIn], [made], 1, 0⟩ * witnessScaleFactor ≤ maxBlockWeight)
    (hScript : verifyScript txIn.scriptSig out.scriptPubKey txIn.scriptWitness scriptFlags ⟨[txIn], [made], 1, 0⟩ 0
      out.nValue = true) : TxOk verifyScript ledger scriptFlags height ⟨[txIn], [made], 1, 0⟩ := by
  have hSpend : NetMessageTransaction.isCoinBase ⟨[txIn], [made], 1, 0⟩ = false := by
    rw [Bool.eq_false_iff]
    intro hCoinBase
    obtain ⟨_, hVin, hNull⟩ := (NetMessageTransaction.isCoinBase_iff _).mp hCoinBase
    cases hVin
    exact hPt hNull
  have hValue : ledger.value txIn.previousOutput = out.nValue := by
    apply Ledger.value_of_output
    rw [Ledger.output, hIdx, Option.bind_some, hOut]
  have hSumIn : ledger.sumIn ⟨[txIn], [made], 1, 0⟩ = out.nValue := by
    rw [← hValue]
    exact Int.add_zero _
  have hSumOut : NetMessageTransaction.sumOut ⟨[txIn], [made], 1, 0⟩ = made.nValue := Int.add_zero _
  refine ⟨⟨by simp, by simp, hSize, ?_, by omega, fun hCoinBase => absurd (hCoinBase.symm.trans hSpend) (by simp)⟩, fun _ => ?_⟩
  · intro other hOther
    rw [List.mem_singleton.mp hOther]
    exact hNonneg
  · refine ⟨?_, by simp, by omega, by omega⟩
    intro i other hGet
    obtain ⟨rfl, rfl⟩ : i = 0 ∧ txIn = other := by
      cases i with
      | zero => exact ⟨rfl, Option.some.inj hGet⟩
      | succ i => cases hGet
    exact ⟨hPt, hUnspent, idx, out, hIdx, hOut, hMature, (moneyRange_iff _).mpr ⟨Int.le_trans hNonneg hCovered, hMax⟩, hScript⟩

end Spend

def curve : Secp256k1 := ⟨fun _ => true, fun _ _ _ _ => true⟩

def vchPubKey : Bytes := 2 :: List.replicate 32 1

def hash : Hash160 :=
  ⟨[155, 89, 109, 119, 42, 59, 254, 3, 53, 243, 108, 56, 53, 127, 2, 98, 33, 33, 44, 144], rfl⟩

def lock : Lock := .witness ⟨hash, .inl hash.property⟩

def fundTx : NetMessageTransaction := ⟨[⟨Revival.output, [], 0xffffffff, []⟩], [⟨50 * coin, lock.script⟩], 1, 0⟩

def coinPt : OutPoint := ⟨fundTx.getHash, 0⟩

/-- The signature is the shortest one that can be parsed. -/
def claimTx : NetMessageTransaction :=
  ⟨[⟨coinPt, [], 0xffffffff, [[0x30, 6, 2, 1, 1, 2, 1, 1] ++ [SigHash.all], vchPubKey]⟩], [⟨50 * coin, [OP_1]⟩], 1, 0⟩

def fund : Block := blockOn Revival.tipHash [Revival.filler, fundTx] 1296688603 1

def fundHash : Uint256 := Uint256.ofArith 0x7115b6de23b8c736a15f2d87c955eeb3a063b5a72dec79d406f0a7d3df94fcb3

def claim : Block := blockOn fundHash [Revival.filler, claimTx] 1296688603 0

def blocks : List Block := [getGenesisBlock] ++ Revival.firstPart ++ [fund]

def stretch : Stretch Revival.tipHash
    (Uint256.ofArith 0x2dcefc836ca136d4417f28b84758710398bc576cc691fcdb78e156365d48468d) [fund, claim] where
  marks := [5489, 52781]
  ok := by decide +kernel

theorem headers : headersOk params.hashGenesisBlock [params.hashGenesisBlock] (Revival.firstPart ++ [fund, claim]) = true := by
  refine headersOk_of_stretchOk (stretchOk_append Revival.firstStretch.ok stretch.ok) ?_ ?_
  · decide +kernel
  · decide +kernel

theorem contents : checkBlockContents fund = true ∧ checkBlockContents claim = true := by
  decide +kernel

theorem scripts :
    verifyScriptWith curve [] [OP_1] [] (scriptFlagsAt 101) fundTx 0 (50 * coin) = true ∧
      verifyScriptWith curve [] lock.script [[0x30, 6, 2, 1, 1, 2, 1, 1] ++ [SigHash.all], vchPubKey] (scriptFlagsAt 102)
        claimTx 0 (50 * coin) = true := by
  decide +kernel

theorem sizes : fundTx.getSerializeSize * witnessScaleFactor ≤ maxBlockWeight ∧
    claimTx.getSerializeSize * witnessScaleFactor ≤ maxBlockWeight ∧ coinPt ≠ OutPoint.null := by
  decide +kernel

theorem spending : fundTx.isCoinBase = false ∧ claimTx.isCoinBase = false := by
  decide +kernel

theorem length_firstPart : ([getGenesisBlock] ++ Revival.firstPart).length = 101 := rfl

theorem valid_firstPart : ValidChain (verifyScriptWith curve) BlockRule.any ([getGenesisBlock] ++ Revival.firstPart) := by
  refine ValidChain.genesis.append_coinbases ?_ fun block hMem => Revival.coinbases_of_mem hMem
  intro before block after hSplit
  exact headerOk_of_genesis headers before (after ++ [fund, claim]) (by rw [hSplit]; simp)

theorem valid_fund : ValidChain (verifyScriptWith curve) BlockRule.any blocks := by
  obtain ⟨hUnspent, hashBlock, hIdx⟩ := Revival.firstPart_kept
  refine valid_firstPart.extend ((headerOk_of_genesis headers Revival.firstPart [claim] rfl).follows contents.1 ?_) trivial
  refine vtxValid_cons_coinbase (txFormat_plainCoinbase (by simp) (by simp) (by decide)) rfl ?_
  intro tx hTx
  rw [List.mem_singleton.mp hTx, length_firstPart]
  exact txOk_oneInput Revival.paid_ne.2.2 hUnspent hIdx rfl (fun _ => show coinbaseMaturity ≤ (101 : Int) - 1 by decide)
    (by decide) (by decide) (by decide) sizes.1 scripts.1

theorem txsOfChain_blocks : txsOfChain blocks = txsOfChain ([getGenesisBlock] ++ Revival.firstPart) ++
    [⟨fund.getHash, 101, Revival.filler⟩] ++ [⟨fund.getHash, 101, fundTx⟩] := by
  rw [blocks, txsOfChain_append_singleton, length_firstPart, List.append_assoc]
  rfl

theorem lastTx_coinPt : Ledger.lastTx (txsOfChain blocks) fundTx.getHash = some ⟨fund.getHash, 101, fundTx⟩ := by
  rw [txsOfChain_blocks]
  exact Ledger.lastTx_append_singleton_self _ ⟨fund.getHash, 101, fundTx⟩

theorem valid_claim : ValidChain (verifyScriptWith curve) BlockRule.any (blocks ++ [claim]) := by
  have hIdx : (ledgerOf blocks).txIndex[coinPt.hashTransaction]? = some ⟨fund.getHash, 101, fundTx⟩ := by
    rw [ledgerOf, Ledger.replay_txIndex]
    exact lastTx_coinPt
  have hUnspent : (ledgerOf blocks).utxo.Unspent coinPt := by
    rw [ledgerOf, Ledger.unspent_replay_iff _ sizes.2.2, txsOfChain_blocks, unspentIn_append_singleton_iff]
    exact .inl (List.mem_map.mpr ⟨0, by decide, rfl⟩)
  have hHeader : HeaderOk blocks claim := by
    rw [blocks, List.append_assoc]
    exact headerOk_of_genesis headers (Revival.firstPart ++ [fund]) [] (by simp)
  refine valid_fund.extend (hHeader.follows contents.2 ?_) trivial
  refine vtxValid_cons_coinbase (txFormat_plainCoinbase (by simp) (by simp) (by decide)) rfl ?_
  intro tx hTx
  rw [List.mem_singleton.mp hTx]
  have hLength : blocks.length = 102 := rfl
  rw [hLength]
  exact txOk_oneInput sizes.2.2 hUnspent hIdx rfl (fun hCoinBase => absurd (hCoinBase.symm.trans spending.1) (by simp)) (by decide)
    (by decide) (by decide) sizes.2.1 scripts.2

end KeyChain

namespace Node

/-- On the chain of a run, an output to the hash of a key moves only with a signature of such a key for this spend. -/
theorem coins_move_with_their_keys {curve : Secp256k1} {node : Node}
    (hRun : TipRun (verifyScriptWith curve) BlockRule.any node) {before after : List Block} {block : Block}
    (hSplit : node.activeBlocks = before ++ block :: after) {tx : NetMessageTransaction} (hTx : tx ∈ block.vtx)
    (hSpend : tx.isCoinBase = false) (nIn : Fin tx.vin.length) {amount : Int} {hash : Hash160}
    (hOut : outputIn (txsOfChain before) (tx.vin.get nIn).previousOutput =
      some ⟨amount, (Lock.witness ⟨hash, .inl hash.property⟩).script⟩) :
    KeyMoves curve tx nIn amount hash := by
  have hSound : BlockSound (verifyScriptWith curve) before block := by
    rcases hRun.refines.valid.follows_of_split hSplit with ⟨rfl, rfl⟩ | ⟨hFollows, -⟩
    · exact genesis_sound
    · exact hFollows.sound
  obtain ⟨idx, out, hInput⟩ := hSound.inputs tx hTx hSpend nIn (tx.vin.get nIn) (List.getElem?_eq_getElem nIn.isLt)
  rw [outputIn, hInput.last, Option.bind_some, hInput.output, Option.some.injEq] at hOut
  have hScript := hInput.script
  rw [hOut] at hScript
  exact keyMoves_of_verifyScript hScript

theorem coins_move_with_their_keys_claim : ∃ node : Node, node.activeBlocks = KeyChain.blocks ++ [KeyChain.claim] ∧
    KeyMoves KeyChain.curve KeyChain.claimTx ⟨0, Nat.zero_lt_one⟩ (50 * coin) KeyChain.hash := by
  obtain ⟨node, hRun, hHolds⟩ := exists_tipRun KeyChain.valid_claim
  refine ⟨node, hHolds.blocks, coins_move_with_their_keys hRun hHolds.blocks (List.mem_cons_of_mem _ List.mem_cons_self)
    KeyChain.spending.2 _ ?_⟩
  show outputIn (txsOfChain KeyChain.blocks) KeyChain.coinPt = _
  rw [outputIn, KeyChain.coinPt, KeyChain.lastTx_coinPt]
  rfl

end Node

end BitcoinGpuMiner
