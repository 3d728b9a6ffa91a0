import BitcoinGpuMiner.Model.CheckBlock

/-! # `BTC_SHA256_GPU`: the mining loop and the checker

Two threads share `_runState` and the blocks. The loop is cut at every point where the other thread, or a
caller of `Reset` or `Stop`, can come in between; a task of the checker is one step.
-/

namespace BitcoinGpuMiner

set_option autoImplicit false

inductive RunState where
  | runing
  | restert
  | stop
deriving DecidableEq

/-- Where the loop stands: before the `switch`, before each part of the `RESTERT` case, before the batch, or at
one of its ends. -/
inductive LoopPoint where
  | top
  | restart
  | submit
  | fetch
  | batch
  | returned
  | exited
deriving DecidableEq

/-- A call of `CheckResults` that waits in the worker's queue. Blocks are shared, so a task names its block by the
place it was created at. -/
structure CheckTask where
  results : List Uint256
  nonceOffset : UInt32
  block : Option Nat
  bnTarget : Nat

structure GpuMiner where
  runState : RunState
  point : LoopPoint
  /-- Every block the callback has made, in order. -/
  blocks : List Block
  block : Option Nat
  /-- What was copied to the device. -/
  header : BlockHeader
  nonceOffset : UInt32
  bnTarget : Nat
  tasks : List CheckTask
  /-- The calls of `foundNewBlockCallback` so far, with the block as it was then. -/
  handed : List (Nat × Block)

/-- The hashes of one batch; work item `i` uses the nonce `nonceOffset + i`. The kernel puts them in this order for up
to `2 ^ 26` items. -/
def batchResults (header : BlockHeader) (nonceOffset : UInt32) (count : Nat) : List Uint256 :=
  (List.range count).map fun i => BlockHeader.getHash { header with nNonce := nonceOffset + UInt32.ofNat i }

/-- The first result that meets the target. -/
def CheckTask.hit (task : CheckTask) : Option Nat :=
  task.results.findIdx? fun hash => decide (hash.toArith ≤ task.bnTarget)

namespace GpuMiner

def initial : GpuMiner :=
  ⟨.restert, .top, [], none, Block.null.toBlockHeader, 0, 0, [], []⟩

/-- One step of the loop in `SyncStart`; `template` is what the callback for a new block returns. -/
def loop (threadCount : UInt32) (template : Block) (miner : GpuMiner) : GpuMiner :=
  match miner.point with
  | .top =>
    match miner.runState with
    | .restert => { miner with point := .restart }
    | .stop => { miner with point := .returned }
    | .runing => { miner with point := .batch }
  | .restart => { miner with runState := .runing, point := .submit }
  | .submit =>
    { miner with
      handed := miner.handed ++ miner.block.toList.map fun id => (id, miner.blocks.getD id Block.null)
      point := .fetch }
  | .fetch =>
    { miner with
      blocks := miner.blocks ++ [template]
      block := some miner.blocks.length
      header := template.toBlockHeader
      nonceOffset := 0
      -- the answer of `funcBuildTarget` is not used
      bnTarget := (setCompact template.nBits).target
      point := .batch }
  | .batch =>
    -- the size of the output buffer is a 32-bit product
    let count := (threadCount * 32 / 32).toNat
    let task : CheckTask :=
      ⟨batchResults miner.header miner.nonceOffset count, miner.nonceOffset, miner.block, miner.bnTarget⟩
    let posted : GpuMiner := { miner with tasks := miner.tasks ++ [task] }
    if (miner.nonceOffset + threadCount).toNat > 0xffffffff then { posted with point := .exited }
    else { posted with nonceOffset := miner.nonceOffset + threadCount, point := .top }
  | .returned => miner
  | .exited => miner

def check (miner : GpuMiner) : GpuMiner :=
  match miner.tasks with
  | [] => miner
  | task :: rest =>
    match task.hit, task.block with
    | some i, some id =>
      { miner with
        tasks := rest
        blocks := miner.blocks.modify id fun block => { block with nNonce := task.nonceOffset + UInt32.ofNat i }
        runState := .restert }
    | _, _ => { miner with tasks := rest }

def reset (miner : GpuMiner) : GpuMiner := { miner with runState := .restert }

def stop (miner : GpuMiner) : GpuMiner := { miner with runState := .stop }

end GpuMiner

inductive MinerEvent where
  | loop (template : Block)
  | check
  | reset
  | stop

def GpuMiner.step (threadCount : UInt32) (miner : GpuMiner) : MinerEvent → GpuMiner
  | .loop template => miner.loop threadCount template
  | .check => miner.check
  | .reset => miner.reset
  | .stop => miner.stop

end BitcoinGpuMiner
