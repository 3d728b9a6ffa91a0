import BitcoinGpuMiner.Chain.Connected
import BitcoinGpuMiner.Chain.Disk
import BitcoinGpuMiner.Chain.ForkWalk
import BitcoinGpuMiner.Chain.Leaves
import BitcoinGpuMiner.Chain.MedianTime
import BitcoinGpuMiner.Chain.MerkleInPlace
import BitcoinGpuMiner.Chain.Mutation
import BitcoinGpuMiner.Chain.NextPointers
import BitcoinGpuMiner.Chain.Redelivery
import BitcoinGpuMiner.Chain.Refusal
import BitcoinGpuMiner.Chain.Retarget
import BitcoinGpuMiner.Chain.TipLoss
import BitcoinGpuMiner.Ledger.Amounts
import BitcoinGpuMiner.Ledger.ForkCheck
import BitcoinGpuMiner.Ledger.InBlock
import BitcoinGpuMiner.Ledger.InSync
import BitcoinGpuMiner.Ledger.Spending
import BitcoinGpuMiner.Ledger.Supply
import BitcoinGpuMiner.Ledger.Undo
import BitcoinGpuMiner.Mining.Agreement
import BitcoinGpuMiner.Mining.KernelHash
import BitcoinGpuMiner.Mining.Nonces
import BitcoinGpuMiner.Mining.Stopping
import BitcoinGpuMiner.Pool.Promotion
import BitcoinGpuMiner.Script.Conditionals
import BitcoinGpuMiner.Script.SigChecks
import BitcoinGpuMiner.Script.SignedCopy
import BitcoinGpuMiner.Sync.Bookkeeping
import BitcoinGpuMiner.Sync.Completion
import BitcoinGpuMiner.Wire.CachedHash
import BitcoinGpuMiner.Wire.Canonical
import BitcoinGpuMiner.Wire.HeaderHash
import BitcoinGpuMiner.Wire.SendQueue
import BitcoinGpuMiner.Wire.Truncation
import BitcoinGpuMiner.Wire.Weight
