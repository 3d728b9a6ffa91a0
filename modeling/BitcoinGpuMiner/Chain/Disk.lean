import BitcoinGpuMiner.Chain.Difficulty
import BitcoinGpuMiner.Chain.PlainBlock
import BitcoinGpuMiner.Foundation.Transitions
import BitcoinGpuMiner.Wire.Stored

/-! # `AcceptBlock` over the stored bytes

As long as every stored block comes back from the database, the functions over the bytes do what those over blocks do.
The transactions of a block beside the active tip are not checked before it is saved, so one may be saved that does not
come back; the next walk that gets to it ends with an exception.
-/

namespace BitcoinGpuMiner

open Foundation

set_option autoImplicit false

def Block.Durable (stale : Nat → UInt8) (block : Block) : Prop := getBlock stale block.putBlock = .ok block

def Node.AllRead (stale : Nat → UInt8) (node : Node) : Prop :=
  AllEntries (fun _ block => block.Durable stale) node.blocks

theorem Node.saveBlock_blocks {node node' : Node} {block : Block} {prev index : BlockIndex} {tip : Bool}
    (hSaved : node.saveBlock block prev tip = some (node', index)) :
    node'.blocks = node.blocks.insert block.getHash block := by
  rw [saveBlock] at hSaved
  split at hSaved
  · cases hSaved
  · cases hSaved
    rfl

theorem Node.foldl_clearInvalid_blocks (indices : List BlockIndex) (node : Node) :
    (indices.foldl clearInvalid node).blocks = node.blocks := by
  induction indices generalizing node with
  | nil => rfl
  | cons index rest ih => exact ih _

namespace Disk

variable {stale : Nat → UInt8} {node : Node} {block : Block}

section Walks

variable (hRead : node.AllRead stale)
include hRead

theorem readBlock_eq (hash : Uint256) (block : Block) :
    readBlock stale node.database hash block = .ok (node.readOver hash block) := by
  rw [readBlock, Node.database, Std.ExtTreeMap.getElem?_map, Node.readOver]
  cases hGet : node.blocks[hash]? with
  | none => rfl
  | some found => exact hRead hash found hGet

theorem skipLimitBlocks_eq (limit : UInt32) (fuel : Nat) (block : Block) :
    skipLimitBlocks stale node.database limit fuel block =
      (BitcoinGpuMiner.skipLimitBlocks node.blocks limit fuel block).mapError .fault := by
  induction fuel generalizing block with
  | zero => rfl
  | succ fuel ih =>
    rw [skipLimitBlocks, BitcoinGpuMiner.skipLimitBlocks, readBlock_eq hRead]
    split
    · exact ih _
    · rfl

theorem goBack_eq (count : Nat) (block : Block) :
    goBack stale node.database count block = .ok (BitcoinGpuMiner.goBack node.blocks count block) := by
  induction count generalizing block with
  | zero => rfl
  | succ count ih =>
    rw [goBack, BitcoinGpuMiner.goBack, readBlock_eq hRead]
    exact ih _

theorem getNextWorkRequired_eq (activeTip : BlockIndex) (lastBlock block : Block) :
    getNextWorkRequired stale node activeTip lastBlock block =
      (node.getNextWorkRequired activeTip lastBlock block).mapError .fault := by
  rw [getNextWorkRequired, Node.getNextWorkRequired, skipLimitBlocks_eq hRead, goBack_eq hRead, ← mapError_map]
  dsimp only
  split
  · split
    · split <;> rfl
    · rfl
  · rfl

theorem checkBlock_eq (block : Block) : checkBlock stale node block = (node.checkBlock block).mapError .fault := by
  rw [checkBlock, Node.checkBlock]
  split
  · rfl
  cases node.tips.getActiveTip with
  | none => rfl
  | some activeTip =>
    dsimp only
    rw [readBlock_eq hRead, ← show node.getBlock activeTip.hash = node.readOver activeTip.hash Block.null from rfl]
    dsimp only
    rw [getNextWorkRequired_eq hRead]
    split
    · rfl
    cases node.getNextWorkRequired activeTip (node.getBlock activeTip.hash) block with
    | error fault => rfl
    | ok nowBits =>
      dsimp only [Except.mapError]
      split <;> rfl

end Walks

section Branches

variable (verifyScript : VerifyScript) (hRead : node.AllRead stale)
include hRead

theorem acceptSide_eq (block : Block) (prev : Option BlockIndex) :
    acceptSide stale node block prev = .of (node.acceptSide block prev) := by
  rw [acceptSide, Node.acceptSide, checkBlock_eq hRead]
  cases node.checkBlock block with
  | error fault => rfl
  | ok passed =>
    cases passed with
    | false => rfl
    | true =>
      dsimp only [Except.mapError]
      cases node.saveBlock block (prev.getD BlockIndex.empty) true <;> rfl

theorem acceptLongest_eq (block : Block) (prev : Option BlockIndex) :
    acceptLongest stale verifyScript node block prev = .of (node.acceptLongest verifyScript block prev) := by
  rw [acceptLongest, Node.acceptLongest, checkBlock_eq hRead]
  cases node.checkBlock block with
  | error fault => rfl
  | ok passed =>
    cases passed with
    | false => rfl
    | true =>
      dsimp only [Except.mapError]
      cases checkTransactions verifyScript node.ledger _ (Node.currentHeight block.getHash prev) none block.vtx with
      | error fault => rfl
      | ok result =>
        cases result with
        | none => rfl
        | some result =>
          dsimp only
          cases node.saveBlock block (prev.getD BlockIndex.empty) true <;> rfl

end Branches

section Overtake

variable (verifyScript : VerifyScript) (prev : BlockIndex) (scriptFlags : UInt32) (forkBlockHeight : Int)

theorem forkBlock_eq {check : ForkCheck} (hRead : check.node.AllRead stale) (index : BlockIndex) :
    forkBlock stale block prev check index = .ok (Node.forkBlock block prev check index) := by
  rw [forkBlock, Node.forkBlock, readBlock_eq hRead]
  split
  · cases check.node.saveBlock block prev false <;> rfl
  · rfl

theorem checkForkBlock_eq {check : ForkCheck} (hRead : check.node.AllRead stale) (index : BlockIndex) :
    checkForkBlock stale verifyScript block prev scriptFlags forkBlockHeight check index =
      (Node.checkForkBlock verifyScript block prev scriptFlags forkBlockHeight check index).mapError .of := by
  rw [checkForkBlock, Node.checkForkBlock, checkBlock_eq hRead, forkBlock_eq prev hRead]
  cases check.node.checkBlock block with
  | error fault => rfl
  | ok passed =>
    cases passed with
    | false => rfl
    | true =>
      dsimp only [Except.mapError]
      cases Node.forkBlock block prev check index with
      | none => rfl
      | some found =>
        obtain ⟨next, tmpBlock⟩ := found
        dsimp only
        cases next.newBlockIndex with
        | none => rfl
        | some newBlockIndex =>
          dsimp only
          cases checkTransactions verifyScript next.node.ledger scriptFlags newBlockIndex.height
            (some ⟨next.tmpMemTxIndexMap, next.tmpMemUTXOSet, forkBlockHeight⟩) tmpBlock.vtx with
          | error fault => rfl
          | ok result => cases result <;> rfl

theorem allRead_forkBlock {check next : ForkCheck} (hRead : check.node.AllRead stale) (hDurable : block.Durable stale)
    {index : BlockIndex} {tmpBlock : Block} (hFork : Node.forkBlock block prev check index = some (next, tmpBlock)) :
    next.node.AllRead stale := by
  rw [Node.forkBlock] at hFork
  split at hFork
  · cases hSaved : check.node.saveBlock block prev false with
    | none =>
      rw [hSaved] at hFork
      cases hFork
    | some saved =>
      rw [hSaved] at hFork
      cases hFork
      show AllEntries _ saved.1.blocks
      rw [Node.saveBlock_blocks hSaved]
      exact hRead.insert hDurable
  · cases hFork
    exact hRead

/-- A round saves the new block at most, and only one that passed the checks that do not need the chain. -/
theorem allRead_checkForkBlock (hBlock : checkBlockContents block = true → block.Durable stale)
    {check check' : ForkCheck} (hRead : check.node.AllRead stale) {index : BlockIndex}
    (hChecked : Node.checkForkBlock verifyScript block prev scriptFlags forkBlockHeight check index = .ok check') :
    check'.node.AllRead stale := by
  rw [Node.checkForkBlock] at hChecked
  cases hPassed : check.node.checkBlock block with
  | error fault =>
    rw [hPassed] at hChecked
    cases hChecked
  | ok passed =>
    cases passed with
    | false =>
      rw [hPassed] at hChecked
      cases hChecked
    | true =>
      have hContents : checkBlockContents block = true := by
        rw [Node.checkBlock] at hPassed
        split at hPassed
        · cases hPassed
        case isFalse hNot => simpa using hNot
      rw [hPassed] at hChecked
      dsimp only at hChecked
      split at hChecked
      · cases hChecked
      case h_2 next tmpBlock hFork =>
        split at hChecked
        · cases hChecked
        case h_2 newBlockIndex _ =>
          split at hChecked
          · cases hChecked
          · cases hChecked
          · cases hChecked
            rw [(ForkCheck.foldl_record index tmpBlock.vtx next).1]
            exact allRead_forkBlock prev hRead (hBlock hContents) hFork

section Loop

variable (hRead : node.AllRead stale) (hBlock : checkBlockContents block = true → block.Durable stale)
include hRead hBlock

theorem checkFork_eq (forkChain : List BlockIndex) :
    checkFork stale verifyScript block prev scriptFlags forkBlockHeight node forkChain =
      (Node.checkFork verifyScript block prev scriptFlags forkBlockHeight node forkChain).mapError .of :=
  foldlM_eq_mapError (motive := fun check => check.node.AllRead stale)
    (fun _ index hRead => checkForkBlock_eq verifyScript prev scriptFlags forkBlockHeight hRead index)
    (fun _ _ _ hRead hChecked => allRead_checkForkBlock verifyScript prev scriptFlags forkBlockHeight hBlock hRead hChecked)
    forkChain.reverse hRead

theorem allRead_checkFork {forkChain : List BlockIndex} {check : ForkCheck}
    (hChecked : Node.checkFork verifyScript block prev scriptFlags forkBlockHeight node forkChain = .ok check) :
    check.node.AllRead stale :=
  foldlM_keeps (motive := fun check => check.node.AllRead stale)
    (fun _ _ _ hRead hChecked => allRead_checkForkBlock verifyScript prev scriptFlags forkBlockHeight hBlock hRead hChecked)
    forkChain.reverse hRead hChecked

end Loop

/-- The last two loops: what is done with a block does not change the stored ones. -/
theorem foldlM_withBlockOf {change : Node → BlockIndex → Block → Node}
    (hChange : ∀ node index block, (change node index block).blocks = node.blocks) (indices : List BlockIndex)
    (hRead : node.AllRead stale) : indices.foldlM (withBlockOf stale change) node =
      .ok (indices.foldl (fun node index => change node index (node.getBlock index.hash)) node) := by
  induction indices generalizing node with
  | nil => rfl
  | cons index rest ih =>
    have hNext : (change node index (node.getBlock index.hash)).AllRead stale := by
      rw [Node.AllRead, hChange]
      exact hRead
    rw [List.foldlM_cons, withBlockOf, readBlock_eq hRead]
    exact ih hNext

theorem acceptOvertaking_eq (hRead : node.AllRead stale)
    (hBlock : checkBlockContents block = true → block.Durable stale) (tip activeTip : BlockIndex)
    (prev : Option BlockIndex) : acceptOvertaking stale verifyScript node block tip activeTip prev =
      .of (node.acceptOvertaking verifyScript block tip activeTip prev) := by
  rw [acceptOvertaking, Node.acceptOvertaking]
  dsimp only
  generalize walkToFork node.blockIndex activeTip _ _ _ _ = walked
  cases walked with
  | error fault => rfl
  | ok walk =>
    dsimp only
    rw [checkFork_eq verifyScript _ _ _ hRead hBlock]
    generalize ScriptValidation.getBlockScriptFlags _ = scriptFlags
    cases hChecked : Node.checkFork verifyScript block (prev.getD BlockIndex.empty) scriptFlags walk.forkBlockHeight node
      walk.forkChain with
    | error outcome => rfl
    | ok check =>
      have hAll := allRead_checkFork verifyScript _ _ _ hRead hBlock hChecked
      dsimp only [Except.mapError]
      have hClear : walk.inValidChain.reverse.foldlM (clearInvalid stale) check.node =
          .ok (walk.inValidChain.reverse.foldl Node.clearInvalid check.node) := by
        refine foldlM_withBlockOf ?_ _ hAll
        intro node index block
        rfl
      have hCleared : (walk.inValidChain.reverse.foldl Node.clearInvalid check.node).AllRead stale := by
        rw [Node.AllRead, Node.foldl_clearInvalid_blocks]
        exact hAll
      have hProcess : walk.forkChain.reverse.foldlM (processFork stale)
          (walk.inValidChain.reverse.foldl Node.clearInvalid check.node) =
            .ok (walk.forkChain.reverse.foldl Node.processFork (walk.inValidChain.reverse.foldl Node.clearInvalid check.node)) := by
        refine foldlM_withBlockOf ?_ _ hCleared
        intro node index block
        rfl
      rw [hClear]
      dsimp only
      rw [hProcess]
      dsimp only
      cases check.newBlockIndex <;> rfl

end Overtake

/-- The branches do what they do over blocks; where the new block is read again it must come back. -/
theorem acceptBlock_eq (verifyScript : VerifyScript) (hRead : node.AllRead stale)
    (hBlock : ∀ tip, node.tips.getTip block.hashPrevBlock = some tip → node.tips.getActiveTip ≠ some tip →
      checkBlockContents block = true → block.Durable stale) :
    acceptBlock stale verifyScript node block = .of (node.acceptBlock verifyScript block) := by
  rw [acceptBlock, Node.acceptBlock]
  split
  · rfl
  cases hTip : node.tips.getTip block.hashPrevBlock with
  | none =>
    dsimp only
    split
    · exact acceptSide_eq hRead block _
    · rfl
  | some tip =>
    dsimp only
    cases hActive : node.tips.getActiveTip with
    | none => rfl
    | some active =>
      dsimp only
      split
      case isTrue => exact acceptLongest_eq verifyScript hRead block _
      case isFalse hOther =>
        split
        case isTrue =>
          refine acceptOvertaking_eq verifyScript hRead ?_ tip active _
          apply hBlock tip hTip
          rw [hActive]
          intro hSame
          exact hOther (Option.some.inj hSame).symm
        case isFalse => exact acceptSide_eq hRead block _

theorem durable_of_contents (hTypes : block.FitsTypes) (hRecognisable : block.Recognisable)
    (hContents : checkBlockContents block = true) : block.Durable stale := by
  have hSize := ((checkBlockContents_iff block).mp hContents).size
  rw [witnessScaleFactor, maxBlockWeight, Block.getSerializeSize] at hSize
  refine (hTypes.encodable ?_).getBlock_putBlock hRecognisable (by omega)
  rw [maxSize]
  omega

/-- Beside the active tip there is no transaction that would be taken for another one. The ranges are those of the
types. -/
def Allowed (node : Node) (block : Block) : Prop :=
  block.FitsTypes ∧
    ∀ prev active, node.Candidate block prev active → block.hashPrevBlock ≠ active.hash → block.Recognisable

section Step

variable {verifyScript : VerifyScript} (hTree : node.Tree) (hRead : node.AllRead stale) (hAllowed : Allowed node block)
include hTree hRead hAllowed

theorem acceptBlock_eq_of_allowed : acceptBlock stale verifyScript node block = .of (node.acceptBlock verifyScript block) := by
  by_cases hNew : node.entry block.getHash = none
  case neg =>
    have hContains : node.blockIndex.contains block.getHash = true := by
      rw [contains_eq_isSome, Option.isSome_iff_ne_none]
      exact fun hNone => hNew ((Node.entry_eq_none_iff ..).mpr hNone)
    rw [Node.Tree.acceptBlock_known verifyScript hNew, acceptBlock, if_pos hContains]
    rfl
  apply acceptBlock_eq verifyScript hRead
  intro tip hTip hNotActive hContents
  obtain ⟨prev, hPrev, -⟩ := (Node.entry_eq_some_iff ..).mp (hTree.tipEntry _ tip hTip)
  obtain ⟨active, hActive⟩ := hTree.exists_active
  refine durable_of_contents hAllowed.1 (hAllowed.2 prev active ⟨hNew, hPrev, hActive⟩ ?_) hContents
  intro hTop
  rw [hTop] at hTip
  exact hNotActive (hActive.trans ((hTree.isActive hActive).entry.symm.trans hTip))

/-- A block that is saved comes back: on the active tip its transactions have inputs. -/
theorem allRead_acceptBlock : (node.acceptBlock verifyScript block).node.AllRead stale := by
  have hSaved (hOk : blockOk block = true) (hRecognisable : block.Recognisable) :
      AllEntries (fun _ block => block.Durable stale) (node.blocks.insert block.getHash block) :=
    hRead.insert (durable_of_contents hAllowed.1 hRecognisable ((blockOk_iff _).mp hOk).1)
  generalize hOutcome : node.acceptBlock verifyScript block = outcome
  have hCase := hTree.acceptBlock_cases verifyScript block
  rw [hOutcome] at hCase
  cases hCase with
  | known | notExtended | notBranched | crashed | notOvertaken => exact hRead
  | orphan =>
    obtain ⟨orphanBlocks, hNode⟩ := Node.acceptOrphan_node node block
    rw [hNode]
    exact hRead
  | extended memPool hCandidate hTop hOk hValid hNull =>
    exact hSaved hOk (Block.recognisable_of_inputs fun tx hTx => (hValid tx hTx).format.vin)
  | branched hCandidate hPlace hOk => exact hSaved hOk (hAllowed.2 _ _ hCandidate hPlace.other)
  | savedOnly hCandidate hPlace _ _ hOk => exact hSaved hOk (hAllowed.2 _ _ hCandidate hPlace.other)
  | reorganised _ hCandidate hPlace _ _ hOk => exact hSaved hOk (hAllowed.2 _ _ hCandidate hPlace.other)

end Step

section Runs

/-- A call of `AcceptBlock` over the bytes that returns. -/
def Step (stale : Nat → UInt8) (verifyScript : VerifyScript) (node : Node) (block : Block) (node' : Node) : Prop :=
  ∃ result, acceptBlock stale verifyScript node block = ⟨node', .ok result⟩

def Run (stale : Nat → UInt8) (verifyScript : VerifyScript) (allowed : Node → Block → Prop) (node : Node) : Prop :=
  Relation.ReflTransGen (fun node node' => ∃ block, allowed node block ∧ Step stale verifyScript node block node')
    Node.initial node

variable {verifyScript : VerifyScript}

theorem of_eq_ok_iff {outcome : BitcoinGpuMiner.Outcome} {node' : Node} {result : Bool} :
    Outcome.of outcome = ⟨node', .ok result⟩ ↔ outcome = ⟨node', .ok result⟩ := by
  obtain ⟨after, ended⟩ := outcome
  cases ended <;> simp [Outcome.of, Except.mapError]

theorem step_of_result {result : Bool} (hResult : (acceptBlock stale verifyScript node block).result = .ok result) :
    Step stale verifyScript node block (acceptBlock stale verifyScript node block).node := by
  refine ⟨result, ?_⟩
  rw [← hResult]

theorem step_iff (hTree : node.Tree) (hRead : node.AllRead stale) (hAllowed : Allowed node block) {node' : Node} :
    Step stale verifyScript node block node' ↔ node.Step verifyScript block node' := by
  rw [Step, Node.Step, acceptBlock_eq_of_allowed hTree hRead hAllowed]
  simp only [of_eq_ok_iff]

theorem allRead_initial : Node.initial.AllRead stale := by
  have hContents : checkBlockContents getGenesisBlock = true := by decide +kernel
  have hGenesis : getGenesisBlock.Durable stale := durable_of_contents (by decide) (by decide) hContents
  rw [Node.AllRead, Node.initial_eq]
  exact AllEntries.empty.insert hGenesis

theorem allRead_of_run (hRun : Node.Run verifyScript Allowed node) : node.AllRead stale := by
  refine (hRun.invariant (motive := Node.AllRead stale) allRead_initial ?_).2
  intro node block node' result hTree hRead hAllowed hAccept
  have hAll : (node.acceptBlock verifyScript block).node.AllRead stale := allRead_acceptBlock hTree hRead hAllowed
  rw [hAccept] at hAll
  exact hAll

/-- Under the condition the runs over the bytes are the runs over blocks. -/
theorem run_iff : Run stale verifyScript Allowed node ↔ Node.Run verifyScript Allowed node := by
  constructor
  · intro hRun
    induction hRun with
    | refl => exact .refl
    | tail _ hNext ih =>
      obtain ⟨block, hAllowed, hStep⟩ := hNext
      exact ih.tail ⟨block, hAllowed, (step_iff ih.tree (allRead_of_run ih) hAllowed).mp hStep⟩
  · intro hRun
    induction hRun with
    | refl => exact .refl
    | tail hBefore hNext ih =>
      have hRun : Node.Run verifyScript Allowed _ := hBefore
      obtain ⟨block, hAllowed, hStep⟩ := hNext
      exact ih.tail ⟨block, hAllowed, (step_iff hRun.tree (allRead_of_run hRun) hAllowed).mpr hStep⟩

end Runs

/-- A value is stored under the hash, and a block comes out of it. -/
def Found (stale : Nat → UInt8) (node : Node) (hash : Uint256) (block : Block) : Prop :=
  ∃ value, node.database[hash]? = some value ∧ getBlock stale value = .ok block

/-- What the index and the block database say about each other. -/
structure Closed (stale : Nat → UInt8) (node : Node) : Prop where
  parent : ∀ (h : Uint256) (index : BlockIndex), node.blockIndex[h]? = some index → h ≠ params.hashGenesisBlock →
    ∃ prev : BlockIndex, node.blockIndex[index.hashPrevBlock]? = some prev ∧ prev.height = index.height - 1
  stored : ∀ (h : Uint256) (index : BlockIndex), node.blockIndex[h]? = some index →
    index.hash = h ∧ ∃ block, Found stale node h block ∧ block.getHash = h ∧ block.nBits = 0x207fffff

/-- What `GetBlock` makes of an object; one that throws leaves it. -/
def readOver (stale : Nat → UInt8) (node : Node) (hash : Uint256) (block : Block) : Block :=
  (readBlock stale node.database hash block).toOption.getD block

section Closure

variable (hRead : node.AllRead stale)
include hRead

theorem found_of_stored {hash : Uint256} (hStored : node.blocks[hash]? = some block) : Found stale node hash block := by
  refine ⟨block.putBlock, ?_, hRead hash block hStored⟩
  rw [Node.database, Std.ExtTreeMap.getElem?_map, hStored]
  rfl

theorem readOver_eq : readOver stale node = node.readOver := by
  funext hash block
  rw [readOver, readBlock_eq hRead]
  rfl

theorem closed_of_tree (hTree : node.Tree) : Closed stale node where
  parent h index hIndex hNe := by
    have hEntry : node.entry h = some index.core := (node.entry_eq_some_iff h _).mpr ⟨index, hIndex, rfl⟩
    obtain ⟨-, prev, hPrev, hHeight⟩ := hTree.parent h index.core hEntry hNe
    obtain ⟨full, hFull, rfl⟩ := (node.entry_eq_some_iff _ _).mp hPrev
    refine ⟨full, hFull, ?_⟩
    rw [BlockIndex.core_height, BlockIndex.core_height] at hHeight
    omega
  stored h index hIndex := by
    have hEntry : node.entry h = some index.core := (node.entry_eq_some_iff h _).mpr ⟨index, hIndex, rfl⟩
    obtain ⟨block, hBlock, hHash, -, hBits⟩ := hTree.stored h index.core hEntry
    exact ⟨hTree.keyed h index.core hEntry, block, found_of_stored hRead hBlock, hHash, hBits.trans proofOfWorkLimit_eq⟩

end Closure

/-- In every state of an allowed run the tree is closed, and the required work of any block is the limit and is computed
from blocks that are stored and come back. -/
theorem closed_and_workRequired {verifyScript : VerifyScript} (hRun : Run stale verifyScript Allowed node) :
    Closed stale node ∧ proofOfWorkLimit = 0x207fffff ∧
      ∃ active lastBlock, node.tips.getActiveTip = some active ∧ Found stale node active.hash lastBlock ∧
        ∀ block, getNextWorkRequired stale node active lastBlock block = .ok 0x207fffff ∧
          ∀ hash ∈ workLookups (readOver stale node) (node.walkFuel active.height) active lastBlock block,
            ∃ found, Found stale node hash found := by
  have hNodes := run_iff.mp hRun
  have hTree : node.Tree := hNodes.tree
  have hRead : node.AllRead stale := allRead_of_run hNodes
  obtain ⟨active, hActive⟩ := hTree.exists_active
  obtain ⟨lastBlock, hLast, -⟩ := hTree.stored _ active (hTree.active_entry hActive)
  refine ⟨closed_of_tree hRead hTree, proofOfWorkLimit_eq, active, lastBlock, hActive, found_of_stored hRead hLast, ?_⟩
  intro block
  constructor
  · rw [getNextWorkRequired_eq hRead, hTree.getNextWorkRequired_eq hActive hLast, proofOfWorkLimit_eq]
    rfl
  · intro hash hMem
    rw [readOver_eq hRead] at hMem
    obtain ⟨found, hFound⟩ := hTree.workLookups_found hActive hLast _ block hash hMem
    exact ⟨found, found_of_stored hRead hFound⟩

theorem run_acceptAll {verifyScript : VerifyScript} (blocks : List Block)
    (hBlocks : ∀ block ∈ blocks, block.FitsTypes ∧ block.Recognisable) (hRun : Node.Run verifyScript Allowed node)
    (hReturns : Node.returnsAll verifyScript node blocks = true) :
    Node.Run verifyScript Allowed (Node.acceptAll verifyScript node blocks) := by
  induction blocks generalizing node with
  | nil => exact hRun
  | cons block rest ih =>
    rw [Node.returnsAll, Bool.and_eq_true] at hReturns
    obtain ⟨⟨hTypes, hRecognisable⟩, hRest⟩ := List.forall_mem_cons.mp hBlocks
    have hAllowed : Allowed node block := ⟨hTypes, fun _ _ _ _ => hRecognisable⟩
    exact ih hRest (hRun.tail ⟨block, hAllowed, Node.step_of_isOk hReturns.1⟩) hReturns.2

/-- Two branches from the genesis block; the second one has overtaken the first. -/
def overtaken : Node := Node.acceptAll anyScript Node.initial [rivalBlock 1, rivalBlock 2, Node.secondRival]

theorem closed_and_workRequired_overtaken : Closed (fun _ => 0) overtaken ∧ proofOfWorkLimit = 0x207fffff ∧
    ∃ active lastBlock, overtaken.tips.getActiveTip = some active ∧ Found (fun _ => 0) overtaken active.hash lastBlock ∧
      ∀ block, getNextWorkRequired (fun _ => 0) overtaken active lastBlock block = .ok 0x207fffff ∧
        ∀ hash ∈ workLookups (readOver (fun _ => 0) overtaken) (overtaken.walkFuel active.height) active lastBlock block,
          ∃ found, Found (fun _ => 0) overtaken hash found := by
  have hReturns : Node.returnsAll anyScript Node.initial [rivalBlock 1, rivalBlock 2, Node.secondRival] = true := by
    decide +kernel
  exact closed_and_workRequired (run_iff.mpr (run_acceptAll _ (by decide +kernel) .refl hReturns))

namespace Lost

/-- Without inputs; what is written for it reads as the extended format with a size that is not canonical. -/
def inputless : NetMessageTransaction := ⟨[], [⟨255, []⟩], 1, 0⟩

def lost : Block :=
  blockOn params.hashGenesisBlock [plainCoinbase [2, 0] (50 * coin), inputless] 1296688603 29

def onLost : Block := blockOn lost.getHash [plainCoinbase [3, 0] (50 * coin)] 1296688603 1

def next : Block := blockOn onLost.getHash [plainCoinbase [4, 0] (50 * coin)] 1296688603 1

def first : Node := (acceptBlock (fun _ => 0) anyScript Node.initial (rivalBlock 1)).node

def second : Node := (acceptBlock (fun _ => 0) anyScript first lost).node

def third : Node := (acceptBlock (fun _ => 0) anyScript second onLost).node

/-- A block on a side branch is saved with a transaction that cannot be read back, and the branch overtakes the active
one without the block being read. From then on the walk for the required work throws. -/
theorem exists_block_lost : ∃ (stale : Nat → UInt8) (verifyScript : VerifyScript) (node : Node)
    (active : BlockIndex) (lastBlock block candidate : Block),
    Run stale verifyScript (fun _ block => block.FitsTypes) node ∧
      node.blockIndex.contains block.getHash = true ∧ node.database[block.getHash]? = some block.putBlock ∧
      getBlock stale block.putBlock = .error .nonCanonical ∧
      node.tips.getActiveTip = some active ∧ Found stale node active.hash lastBlock ∧
      candidate.hashPrevBlock = active.hash ∧
      getNextWorkRequired stale node active lastBlock candidate = .error (.thrown .nonCanonical) ∧
      (acceptBlock stale verifyScript node candidate).result = .error (.thrown .nonCanonical) := by
  have hTypes : (rivalBlock 1).FitsTypes ∧ lost.FitsTypes ∧ onLost.FitsTypes := by decide +kernel
  have hRuns : (acceptBlock (fun _ => 0) anyScript Node.initial (rivalBlock 1)).result = .ok true ∧
      (acceptBlock (fun _ => 0) anyScript first lost).result = .ok true ∧
      (acceptBlock (fun _ => 0) anyScript second onLost).result = .ok true := by decide +kernel
  have hState : third.blockIndex.contains lost.getHash = true ∧ third.database[lost.getHash]? = some lost.putBlock ∧
      getBlock (fun _ => 0) lost.putBlock = .error .nonCanonical ∧
      third.tips.getActiveTip = some (BlockIndex.make 2 onLost.getHash lost.getHash) ∧
      third.database[onLost.getHash]? = some onLost.putBlock ∧
      getBlock (fun _ => 0) onLost.putBlock = .ok onLost := by decide +kernel
  have hThrows : getNextWorkRequired (fun _ => 0) third (BlockIndex.make 2 onLost.getHash lost.getHash) onLost next =
        .error (.thrown .nonCanonical) ∧
      (acceptBlock (fun _ => 0) anyScript third next).result = .error (.thrown .nonCanonical) := by decide +kernel
  obtain ⟨hIndexed, hStored, hLost, hActive, hTip, hTipRead⟩ := hState
  have hRun : Run (fun _ => 0) anyScript (fun _ block => block.FitsTypes) third :=
    ((Relation.ReflTransGen.refl.tail ⟨rivalBlock 1, hTypes.1, step_of_result hRuns.1⟩).tail
      ⟨lost, hTypes.2.1, step_of_result hRuns.2.1⟩).tail ⟨onLost, hTypes.2.2, step_of_result hRuns.2.2⟩
  exact ⟨fun _ => 0, anyScript, third, _, onLost, lost, next, hRun, hIndexed, hStored, hLost, hActive,
    ⟨_, hTip, hTipRead⟩, rfl, hThrows.1, hThrows.2⟩

end Lost

end Disk

end BitcoinGpuMiner
