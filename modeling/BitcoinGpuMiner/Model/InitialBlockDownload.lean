import Mathlib.Data.Finset.Basic
import Mathlib.Data.Finset.Lattice.Lemmas
import BitcoinGpuMiner.Model.AcceptBlock

/-! # `InitialBlockDownloadManager`

The manager asks a peer for headers and then, sixteen at a time, for the blocks they announce. It uses the
chain only through `GetActiveTip` and `AcceptBlock`, so the chain is a parameter here. Messages are given
by their decoded contents.
-/

namespace BitcoinGpuMiner

set_option autoImplicit false

/-- The messages the manager sends. -/
inductive Request where
  | getHeaders (blockHeaderHashes : List Uint256)
  | getData (invs : List Uint256)
deriving DecidableEq

structure InitialBlockDownloadManager where
  hashIBDBlocks : Finset Uint256
  hashSendingGetData : List Uint256
  hashDownloadingBlock : Finset Uint256
  isFinish : Bool
  isGetHeaders : Bool
  isFirstHeaders : Bool
  /-- Whether the callback is set; it is the null pointer at first. -/
  notifyIBDCompleteCallback : Bool

namespace InitialBlockDownloadManager

def empty : InitialBlockDownloadManager := ⟨∅, [], ∅, false, false, true, false⟩

def setIBDCompleteCallback (manager : InitialBlockDownloadManager) : InitialBlockDownloadManager :=
  { manager with notifyIBDCompleteCallback := true }

/-- The loop of `Headers` over the announced blocks. -/
def announce (manager : InitialBlockDownloadManager) (headers : List BlockHeader) : InitialBlockDownloadManager :=
  headers.foldl (fun manager header =>
    { manager with
      hashIBDBlocks := insert header.getHash manager.hashIBDBlocks
      hashSendingGetData := manager.hashSendingGetData ++ [header.getHash] }) manager

/-- The loop of `PushGetDataMessage`, which moves hashes from the queue to the downloading set. -/
def takeRequests (manager : InitialBlockDownloadManager) (invs : List Uint256) :
    Nat → InitialBlockDownloadManager × List Uint256
  | 0 => (manager, invs)
  | count + 1 =>
    match manager.hashSendingGetData with
    | [] => (manager, invs)
    | hash :: rest =>
      takeRequests
        { manager with
          hashDownloadingBlock := insert hash manager.hashDownloadingBlock
          hashSendingGetData := rest } (invs ++ [hash]) count

end InitialBlockDownloadManager

/-- What the manager uses of the chain. -/
structure ChainAccess (Chain : Type) where
  getActiveTip : Chain → Option BlockIndex
  acceptBlock : Chain → Block → Chain × Except Fault Bool

/-- The manager, the chain, and what the manager has done to the outside: the messages it has sent and the
number of times it has called the callback. -/
structure Download (Chain : Type) where
  manager : InitialBlockDownloadManager
  chain : Chain
  sent : List Request
  completions : Nat

inductive SyncMessage where
  | verack
  | headers (headers : List BlockHeader)
  | block (block : Block)

namespace Download

variable {Chain : Type}

/-- The constructor of `PeerLogicMan` sets the callback. -/
def start (chain : Chain) : Download Chain :=
  ⟨InitialBlockDownloadManager.empty.setIBDCompleteCallback, chain, [], 0⟩

def pushGetDataMessage (state : Download Chain) : Download Chain :=
  let (manager, invs) := state.manager.takeRequests [] 16
  { state with
    manager := manager
    sent := if invs.isEmpty then state.sent else state.sent ++ [.getData invs] }

section Access

variable (access : ChainAccess Chain)

def pushGetHeadersMessage (state : Download Chain) : Except Fault (Download Chain) :=
  match access.getActiveTip state.chain with
  | none => .error .nullDereference
  | some tipBlock => .ok { state with sent := state.sent ++ [.getHeaders [tipBlock.hash]] }

/-- The log entry reads the active tip before the callback is called. -/
def ibdComplete (state : Download Chain) : Except Fault (Download Chain) :=
  match access.getActiveTip state.chain with
  | none => .error .nullDereference
  | some _ =>
    .ok (if state.manager.notifyIBDCompleteCallback then { state with completions := state.completions + 1 } else state)

def run (state : Download Chain) : Except Fault (Download Chain) := state.pushGetHeadersMessage access

def finish (state : Download Chain) : Download Chain :=
  { state with manager := { state.manager with isFinish := true } }

def headers (state : Download Chain) (headers : List BlockHeader) : Except Fault (Download Chain × Bool) :=
  if state.manager.isFinish then .ok (state, true)
  else if headers.isEmpty then
    let state := { state with manager := { state.manager with isGetHeaders := true } }
    if state.manager.isFirstHeaders then (state.ibdComplete access).map fun state => (state.finish, true)
    else .ok (state, true)
  else
    let manager := { state.manager with isFirstHeaders := false }.announce headers
    let state := pushGetDataMessage { state with manager := manager }
    if headers.length < 2000 then
      .ok ({ state with manager := { state.manager with isGetHeaders := true } }, false)
    else (state.pushGetHeadersMessage access).map fun state => (state, false)

def blocks (state : Download Chain) (block : Block) : Except Fault (Download Chain × Bool) :=
  if state.manager.isFinish then .ok (state, true)
  else
    let hash := block.getHash
    if hash ∉ state.manager.hashIBDBlocks then .ok (state, false)
    else match access.acceptBlock state.chain block with
    | (_, .error fault) => .error fault
    | (chain, .ok false) => .ok ({ state with chain := chain }, false)
    | (chain, .ok true) =>
      let manager := { state.manager with
        hashIBDBlocks := state.manager.hashIBDBlocks.erase hash
        hashDownloadingBlock := state.manager.hashDownloadingBlock.erase hash }
      let state := { state with chain := chain, manager := manager }
      if manager.isGetHeaders ∧ manager.hashIBDBlocks = ∅ then
        (state.finish.ibdComplete access).map fun state => (state, false)
      else if manager.hashDownloadingBlock = ∅ then .ok (state.pushGetDataMessage, false)
      else .ok (state, false)

/-- The cases of `ProcessMessageHandler` that reach the manager. After the download every block goes
straight to the chain. -/
def processMessageHandler (state : Download Chain) : SyncMessage → Except Fault (Download Chain)
  | .verack => state.run access
  | .headers headers => (state.headers access headers).map Prod.fst
  | .block block =>
    match state.blocks access block with
    | .error fault => .error fault
    | .ok (state, false) => .ok state
    | .ok (state, true) =>
      match access.acceptBlock state.chain block with
      | (_, .error fault) => .error fault
      | (chain, .ok _) => .ok { state with chain := chain }

/-- A message that is handled to its end. -/
def step (state : Download Chain) (message : SyncMessage) : Option (Download Chain) :=
  (state.processMessageHandler access message).toOption

end Access

end Download

/-- The chain of this node. -/
def Node.access (verifyScript : VerifyScript) : ChainAccess Node where
  getActiveTip node := node.tips.getActiveTip
  acceptBlock node block :=
    let outcome := acceptBlock verifyScript node block
    (outcome.node, outcome.result)

end BitcoinGpuMiner
