import BitcoinGpuMiner.Chain.PlainBlock
import BitcoinGpuMiner.Sync.Steps
import BitcoinGpuMiner.Wire.Stored

/-! # One hash for a block

A header by itself is followed by a number of transactions, unless the stream is for hashing. That is decided by a
virtual method and by a bit of the stream's version, which the version of the protocol has by chance.
-/

namespace BitcoinGpuMiner

open Foundation

set_option autoImplicit false

namespace BlockHeader

/-- `SerializationOp` to a stream of a version; `isHeader` is what the virtual method returns. -/
def serializeOn (isHeader : Bool) (nVersion nTxCount : Nat) (header : BlockHeader) : Bytes :=
  header.serialize ++ if isHeader && nVersion &&& serGetHash == 0 then writeCompactSize nTxCount else []

/-- `Hash::SerializeHash` with its default arguments, as `GetHash` calls it. -/
def serializeHash (isHeader : Bool) (nTxCount : Nat) (header : BlockHeader) : Uint256 :=
  Sha256.doubleHash256 (header.serializeOn isHeader protocolVersion nTxCount)

theorem serializeHash_eq (isHeader : Bool) (nTxCount : Nat) (header : BlockHeader) :
    header.serializeHash isHeader nTxCount = Sha256.doubleHash256 header.serialize := by
  have hBit : (protocolVersion &&& serGetHash == 0) = false := by decide
  rw [serializeHash, serializeOn, hBit, Bool.and_false, if_neg Bool.false_ne_true, List.append_nil]

end BlockHeader

def Block.getBlockHeader (block : Block) : BlockHeader where
  nVersion := block.nVersion
  hashPrevBlock := block.hashPrevBlock
  hashMerkleRoot := block.hashMerkleRoot
  nTime := block.nTime
  nBits := block.nBits
  nNonce := block.nNonce

/-- The body of a headers message: each header with a number of transactions. -/
def headersMessage (announced : List (Block × Nat)) : Bytes :=
  writeVector (fun entry => entry.1.getBlockHeader.serializeOn true 0 entry.2) announced

/-- `s >> headers` in `Headers`. -/
def readHeaders (stale : Nat → UInt8) : Reader (List BlockHeader) :=
  readVector stale (BlockHeader.unserialize stale true false)

def decodeHeaders (stale : Nat → UInt8) (body : Bytes) : Except ReadFault (List BlockHeader) :=
  (readHeaders stale ⟨body, 0, false⟩).map Prod.fst

section Reading

variable {stale : Nat → UInt8}

theorem reads_headers {announced : List (Block × Nat)} (hLength : announced.length ≤ maxSize)
    (hEntries : ∀ entry ∈ announced, entry.1.FitsVersion ∧ entry.2 ≤ maxSize) :
    Reads (readHeaders stale) (headersMessage announced) (announced.map fun entry => entry.1.getBlockHeader) := by
  refine reads_vector hLength ?_
  intro entry hEntry
  obtain ⟨⟨hLow, hHigh⟩, hCount⟩ := hEntries entry hEntry
  have hReads : Reads (readTxCount stale true false) (writeCompactSize entry.2) entry.2 := reads_compactSize hCount
  exact BlockHeader.reads_counted hLow hHigh hReads

theorem length_headersMessage {announced : List (Block × Nat)} (hLength : announced.length ≤ maxSize) :
    (headersMessage announced).length < 2 ^ 32 := by
  have hMax : maxSize = 0x02000000 := rfl
  have hEntry : ∀ entry ∈ announced, (entry.1.getBlockHeader.serializeOn true 0 entry.2).length ≤ 89 := by
    intro entry _
    have hCount := length_writeCompactSize_le entry.2
    have hHeader := entry.1.getBlockHeader.length_serialize
    have hBit : (0 &&& serGetHash == 0) = true := by decide
    rw [BlockHeader.serializeOn, hBit, if_pos (by rfl), List.length_append]
    omega
  have hAll := length_writeVector_le hEntry
  rw [headersMessage]
  omega

theorem decodeHeaders_headersMessage {announced : List (Block × Nat)} (hLength : announced.length ≤ maxSize)
    (hEntries : ∀ entry ∈ announced, entry.1.FitsVersion ∧ entry.2 ≤ maxSize) (tail : Bytes) :
    decodeHeaders stale (headersMessage announced ++ tail) = .ok (announced.map fun entry => entry.1.getBlockHeader) := by
  rw [decodeHeaders, (reads_headers hLength hEntries).run (length_headersMessage hLength) tail]
  rfl

end Reading

/-- A block, its header alone, a header that was announced with any number of transactions a size may have, and a block
that comes back from the database: the hash of each is that of the same eighty bytes. -/
theorem one_hash_per_block (stale : Nat → UInt8) :
    (∀ (block : Block) (nTxCount : Nat), block.toBlockHeader.serialize.length = 80 ∧
      block.toBlockHeader.serializeHash false nTxCount = Sha256.doubleHash256 block.toBlockHeader.serialize ∧
      block.getBlockHeader.serializeHash true nTxCount = Sha256.doubleHash256 block.toBlockHeader.serialize) ∧
    (∀ (announced : List (Block × Nat)) (tail : Bytes), announced.length ≤ maxSize →
      (∀ entry ∈ announced, entry.1.FitsVersion ∧ entry.2 ≤ maxSize) →
      ∃ headers, decodeHeaders stale (headersMessage announced ++ tail) = .ok headers ∧
        (∀ nTxCount, headers.map (BlockHeader.serializeHash true nTxCount) =
          announced.map fun entry => Sha256.doubleHash256 entry.1.toBlockHeader.serialize) ∧
        ∀ manager : InitialBlockDownloadManager, manager.announce headers = { manager with
          hashIBDBlocks := manager.hashIBDBlocks ∪ (announced.map fun entry => entry.1.getHash).toFinset
          hashSendingGetData := manager.hashSendingGetData ++ announced.map fun entry => entry.1.getHash }) ∧
    (∀ (block returned : Block) (nTxCount : Nat), block.FitsVersion → getBlock stale block.putBlock = .ok returned →
      returned.toBlockHeader.serializeHash false nTxCount = Sha256.doubleHash256 block.toBlockHeader.serialize) ∧
    ∀ block : Block, block.Encodable → (∀ tx ∈ block.vtx, tx.vin ≠ []) → block.serialize.length < 2 ^ 32 →
      getBlock stale block.putBlock = .ok block := by
  refine ⟨?_, ?_, ?_, ?_⟩
  · intro block nTxCount
    exact ⟨BlockHeader.length_serialize _, BlockHeader.serializeHash_eq _ _ _, BlockHeader.serializeHash_eq _ _ _⟩
  · intro announced tail hLength hEntries
    refine ⟨_, decodeHeaders_headersMessage hLength hEntries tail, ?_, ?_⟩
    · intro nTxCount
      rw [List.map_map]
      apply List.map_congr_left
      intro entry _
      exact BlockHeader.serializeHash_eq _ _ _
    · intro manager
      rw [InitialBlockDownloadManager.announce_eq, List.map_map]
      rfl
  · intro block returned nTxCount hVersion hReturned
    rw [BlockHeader.serializeHash_eq, Block.toBlockHeader_getBlock hVersion hReturned]
  · intro block hEncodable hInputs hBound
    exact hEncodable.getBlock_putBlock (Block.recognisable_of_inputs hInputs) hBound

/-- Three headers whose numbers take one, three and five bytes, and the genesis block from the database. -/
theorem one_hash_per_block_three : ∃ headers,
    decodeHeaders (fun _ => 0)
      (headersMessage [(getGenesisBlock, 1), (rivalBlock 1, 300), (rivalBlock 2, maxSize)] ++ [0xff]) = .ok headers ∧
    headers.map (BlockHeader.serializeHash true 7) = [Sha256.doubleHash256 getGenesisBlock.toBlockHeader.serialize,
      Sha256.doubleHash256 (rivalBlock 1).toBlockHeader.serialize,
      Sha256.doubleHash256 (rivalBlock 2).toBlockHeader.serialize] ∧
    (InitialBlockDownloadManager.empty.announce headers).hashSendingGetData =
      [getGenesisBlock.getHash, (rivalBlock 1).getHash, (rivalBlock 2).getHash] ∧
    getBlock (fun _ => 0) getGenesisBlock.putBlock = .ok getGenesisBlock ∧
    getGenesisBlock.toBlockHeader.serializeHash false 7 =
      Sha256.doubleHash256 getGenesisBlock.toBlockHeader.serialize := by
  obtain ⟨-, hMessages, hReturned, hStored⟩ := one_hash_per_block (fun _ => 0)
  have hEntries : ∀ entry ∈ [(getGenesisBlock, 1), (rivalBlock 1, 300), (rivalBlock 2, maxSize)],
      entry.1.FitsVersion ∧ entry.2 ≤ maxSize := by
    decide +kernel
  obtain ⟨headers, hDecoded, hHashes, hQueue⟩ := hMessages _ [0xff] (by decide) hEntries
  have hGenesis := hStored getGenesisBlock (by decide +kernel) (by decide +kernel) (by decide +kernel)
  refine ⟨headers, hDecoded, hHashes 7, ?_, hGenesis, hReturned _ _ 7 (by decide +kernel) hGenesis⟩
  rw [hQueue]
  rfl

/-- A number of transactions above the limit of a size, and a transaction without inputs that reads like one in the
extended format: there is no header and no block to hash. -/
theorem exists_hash_missing :
    (∃ block nTxCount, decodeHeaders (fun _ => 0) (headersMessage [(block, nTxCount)]) = .error .tooLarge) ∧
    ∃ block : Block, getBlock (fun _ => 0) block.putBlock = .error .nonCanonical := by
  let noInputs : NetMessageTransaction := ⟨[], [⟨255, []⟩], 1, 0⟩
  refine ⟨⟨Block.null, maxSize + 1, ?_⟩, ⟨⟨Block.null.toBlockHeader, [noInputs]⟩, ?_⟩⟩ <;> decide +kernel

end BitcoinGpuMiner
