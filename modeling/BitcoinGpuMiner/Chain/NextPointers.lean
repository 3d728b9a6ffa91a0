import Mathlib.Data.List.Chain
import BitcoinGpuMiner.Chain.FirstSeen

/-! # Next pointers

`SaveBlock` points the parent of every block it stores to that block. The pointers follow the active chain
as long as a stored block becomes the active tip exactly when its parent is on the active chain.
-/

namespace BitcoinGpuMiner

open Foundation

set_option autoImplicit false

namespace Node

def nextOf (node : Node) (hash : Uint256) : Option Uint256 := node.blockIndex[hash]?.map BlockIndex.hashNextBlock

/-- Following the next pointers from the genesis block visits the active chain and ends at the active tip. -/
structure NextFollows (node : Node) : Prop where
  start : node.activeChain.head? = some genesisIndex
  linked : (node.activeChain.map BlockIndex.hash).IsChain fun hash next => node.nextOf hash = some next
  stop : ∃ active, node.tips.getActiveTip = some active ∧ node.activeChain.getLast? = some active ∧
    node.nextOf active.hash = some Uint256.null

/-- What a call has to leave behind: pointers along the active chain, which are the old ones if the active
tip is the old one. -/
structure KeepsNext (node node' : Node) : Prop where
  follows : node'.NextFollows
  unchanged : node'.tips.getActiveTip = node.tips.getActiveTip →
    ∀ index ∈ node.activeChain, node'.nextOf index.hash = node.nextOf index.hash

/-- A valid block that is stored and becomes the active tip with its parent off the active chain, or the
other way round. -/
def Misleads (verifyScript : VerifyScript) (node : Node) (block : Block) (prev active : BlockIndex) : Prop :=
  node.checkBlock block = .ok true ∧ block.hashPrevBlock ≠ Uint256.null ∧
    ((node.Beside block prev active ∧
        ¬ (BlockTipManager.Beats (newIndex block prev) active ↔ prev.core ∈ node.activeChain)) ∨
      (node.Rival block prev active ∧ active.height = 1 ∧
        ∃ result, overlayCheck verifyScript node block = .ok (some result)))

namespace Tree

variable {node : Node} {h : Uint256} {index active : BlockIndex}

theorem head?_chainTo (hTree : node.Tree) (hEntry : node.entry h = some index) :
    (node.chainTo (index.height.toNat + 1) h).head? = some genesisIndex := by
  refine hTree.entry_induction ?_ ?_ hEntry
  · rw [hTree.chainTo_genesis, List.head?_singleton]
  · intro h index prev hEntry hNe hPrev hSucc ih
    rw [hTree.chainTo_parent hEntry hNe hPrev, List.head?_append, ih, Option.some_or]

theorem mem_chainTo_self (hEntry : node.entry h = some index) (fuel : Nat) : index ∈ node.chainTo (fuel + 1) h :=
  List.mem_of_getLast? (getLast?_chainTo hEntry fuel)

theorem isChain_chainTo_iff (hTree : node.Tree) (linked : Uint256 → Uint256 → Prop)
    (hEntry : node.entry h = some index) :
    ((node.chainTo (index.height.toNat + 1) h).map BlockIndex.hash).IsChain linked ↔
      ∀ other ∈ node.chainTo (index.height.toNat + 1) h, other.hash ≠ params.hashGenesisBlock →
        linked other.hashPrevBlock other.hash := by
  refine hTree.entry_induction ?_ ?_ hEntry
  · rw [hTree.chainTo_genesis]
    simp [genesisIndex, BlockIndex.make]
  · intro h index prev hEntry hNe hPrev hSucc ih
    have hHash : index.hash ≠ params.hashGenesisBlock := by rwa [hTree.keyed h index hEntry]
    have hLast : ((node.chainTo (prev.height.toNat + 1) index.hashPrevBlock).map BlockIndex.hash).getLast? =
        some index.hashPrevBlock := by
      rw [List.getLast?_map, getLast?_chainTo hPrev, Option.map_some, hTree.keyed _ prev hPrev]
    rw [hTree.chainTo_parent hEntry hNe hPrev, List.map_append, List.isChain_append, hLast, ih]
    simp [or_imp, forall_and, hHash]

theorem parent_mem_chainTo (hTree : node.Tree) (hEntry : node.entry h = some index) :
    ∀ other ∈ node.chainTo (index.height.toNat + 1) h, other.hash ≠ params.hashGenesisBlock →
      ∀ prev, node.entry other.hashPrevBlock = some prev → prev ∈ node.chainTo (index.height.toNat + 1) h := by
  refine hTree.entry_induction ?_ ?_ hEntry
  · intro other hOther hNe
    rw [hTree.chainTo_genesis, List.mem_singleton] at hOther
    exact absurd (congrArg BlockIndex.hash hOther) hNe
  · intro h index prev hEntry hNe hPrev hSucc ih other hOther hOtherNe parent hParent
    rw [hTree.chainTo_parent hEntry hNe hPrev, List.mem_append, List.mem_singleton] at hOther
    rw [hTree.chainTo_parent hEntry hNe hPrev, List.mem_append]
    rcases hOther with hBelow | rfl
    · exact .inl (ih other hBelow hOtherNe parent hParent)
    · cases hPrev.symm.trans hParent
      exact .inl (mem_chainTo_self hPrev _)

theorem chainTo_subset (hTree : node.Tree) {top : BlockIndex} {t : Uint256} (hTop : node.entry t = some top)
    (hEntry : node.entry h = some index) (hMem : index ∈ node.chainTo (top.height.toNat + 1) t) :
    node.chainTo (index.height.toNat + 1) h ⊆ node.chainTo (top.height.toNat + 1) t := by
  revert hMem
  refine hTree.entry_induction ?_ ?_ hEntry
  · intro hMem
    rw [hTree.chainTo_genesis]
    simpa using hMem
  · intro h index prev hEntry hNe hPrev hSucc ih hMem
    rw [hTree.chainTo_parent hEntry hNe hPrev]
    have hHash : index.hash ≠ params.hashGenesisBlock := by rwa [hTree.keyed h index hEntry]
    exact List.append_subset.mpr
      ⟨ih (hTree.parent_mem_chainTo hTop index hMem hHash prev hPrev), by simpa using hMem⟩

/-- Going down from a block off a chain, some block off the chain has its parent on it. -/
theorem exists_departure (hTree : node.Tree) {chain : List BlockIndex} (hGenesis : genesisIndex ∈ chain)
    (hEntry : node.entry h = some index) (hOff : index ∉ chain) :
    ∃ other ∈ node.chainTo (index.height.toNat + 1) h, ∃ parent ∈ chain, other ∉ chain ∧
      other.hash ≠ params.hashGenesisBlock ∧ node.entry other.hashPrevBlock = some parent ∧
      (other = index ∨ other.hash ≠ Uint256.null) := by
  revert hOff
  refine hTree.entry_induction ?_ ?_ hEntry
  · intro hOff
    exact absurd hGenesis hOff
  · intro h index prev hEntry hNe hPrev hSucc ih hOff
    have hChain := hTree.chainTo_parent hEntry hNe hPrev
    by_cases hOn : prev ∈ chain
    · refine ⟨index, mem_chainTo_self hEntry _, prev, hOn, hOff, ?_, hPrev, .inl rfl⟩
      rwa [hTree.keyed h index hEntry]
    · obtain ⟨other, hOther, parent, hParent, hOtherOff, hOtherNe, hLink, hNull⟩ := ih hOn
      refine ⟨other, ?_, parent, hParent, hOtherOff, hOtherNe, hLink, .inr ?_⟩
      · rw [hChain]
        exact List.mem_append_left _ hOther
      · rcases hNull with rfl | hNull
        · rw [hTree.keyed _ other hPrev]
          exact (hTree.parent h index hEntry hNe).1
        · exact hNull

theorem nextFollows_iff (hTree : node.Tree) (hActive : node.tips.getActiveTip = some active) :
    node.NextFollows ↔
      (∀ index ∈ node.activeChain, index.hash ≠ params.hashGenesisBlock →
        node.nextOf index.hashPrevBlock = some index.hash) ∧ node.nextOf active.hash = some Uint256.null := by
  have hEntry := hTree.active_entry hActive
  have hChain := activeChain_of_active hActive
  rw [hChain, ← hTree.isChain_chainTo_iff (fun hash next => node.nextOf hash = some next) hEntry]
  constructor
  · intro hFollows
    obtain ⟨tip, hTip, -, hNext⟩ := hFollows.stop
    cases hActive.symm.trans hTip
    have hLinked := hFollows.linked
    rw [hChain] at hLinked
    exact ⟨hLinked, hNext⟩
  · rintro ⟨hLinked, hNext⟩
    refine ⟨?_, ?_, active, hActive, ?_, hNext⟩
    · rw [hChain, hTree.head?_chainTo hEntry]
    · rw [hChain]
      exact hLinked
    · rw [hChain, getLast?_chainTo hEntry]

theorem eq_or_exists_child (hTree : node.Tree) (hEntry : node.entry h = some index) :
    ∀ other ∈ node.chainTo (index.height.toNat + 1) h, other = index ∨
      ∃ child ∈ node.chainTo (index.height.toNat + 1) h, child.hash ≠ params.hashGenesisBlock ∧
        child.hashPrevBlock = other.hash := by
  refine hTree.entry_induction ?_ ?_ hEntry
  · intro other hOther
    rw [hTree.chainTo_genesis, List.mem_singleton] at hOther
    exact .inl hOther
  · intro h index prev hEntry hNe hPrev hSucc ih other hOther
    have hChain := hTree.chainTo_parent hEntry hNe hPrev
    rw [hChain, List.mem_append, List.mem_singleton] at hOther
    rcases hOther with hBelow | rfl
    · right
      rcases ih other hBelow with rfl | ⟨child, hChild, hChildNe, hLink⟩
      · refine ⟨index, mem_chainTo_self hEntry _, ?_, (hTree.keyed _ other hPrev).symm⟩
        rwa [hTree.keyed h index hEntry]
      · refine ⟨child, ?_, hChildNe, hLink⟩
        rw [hChain]
        exact List.mem_append_left _ hChild
    · exact .inl rfl

theorem next_cases (hTree : node.Tree) (hActive : node.tips.getActiveTip = some active)
    (hFollows : node.NextFollows) {next : Uint256} (hMem : index ∈ node.activeChain)
    (hNext : node.nextOf index.hash = some next) :
    (index = active ∧ next = Uint256.null) ∨ ∃ child ∈ node.activeChain, child.hash = next := by
  obtain ⟨hLinks, hEnd⟩ := (hTree.nextFollows_iff hActive).mp hFollows
  have hChain := activeChain_of_active hActive
  rw [hChain] at hMem
  rcases hTree.eq_or_exists_child (hTree.active_entry hActive) index hMem with rfl | ⟨child, hChild, hNe, hLink⟩
  · exact .inl ⟨rfl, Option.some.inj (hNext.symm.trans hEnd)⟩
  · rw [← hChain] at hChild
    have hChildNext := hLinks child hChild hNe
    rw [hLink, hNext] at hChildNext
    exact .inr ⟨child, hChild, (Option.some.inj hChildNext).symm⟩

end Tree

section WithBlock

variable {node node' : Node} {block : Block} {prev active : BlockIndex}

theorem NextFollows.congr (hFollows : node.NextFollows) (hIndex : node'.blockIndex = node.blockIndex)
    (hTips : node'.tips = node.tips) : node'.NextFollows := by
  have hChain := activeChain_congr hIndex hTips
  have hNext : node'.nextOf = node.nextOf := by
    funext h
    rw [nextOf, nextOf, hIndex]
  constructor
  · rw [hChain]
    exact hFollows.start
  · rw [hChain, hNext]
    exact hFollows.linked
  · rw [hChain, hNext, hTips]
    exact hFollows.stop

theorem nextFollows_congr (hIndex : node'.blockIndex = node.blockIndex) (hTips : node'.tips = node.tips) :
    node'.NextFollows ↔ node.NextFollows :=
  ⟨fun hFollows => hFollows.congr hIndex.symm hTips.symm, fun hFollows => hFollows.congr hIndex hTips⟩

namespace Tree

theorem nextOf_withBlock (hTree : node.Tree) (hCandidate : node.Candidate block prev active) (tip : Bool)
    (h : Uint256) : (node.withBlock block prev tip).nextOf h =
      if block.getHash = h then some Uint256.null else if block.hashPrevBlock = h then some block.getHash
      else node.nextOf h := by
  rw [nextOf, withBlock_blockIndex, lookup_insert, lookup_insert, hTree.prev_hash hCandidate]
  split
  · rfl
  · split
    · rfl
    · rfl

theorem nextOf_withBlock_of_mem (hTree : node.Tree) (hCandidate : node.Candidate block prev active) (tip : Bool)
    {chain : List BlockIndex} (hEntries : ∀ index ∈ chain, node.entry index.hash = some index)
    (hOff : prev.core ∉ chain) : ∀ index ∈ chain,
      (node.withBlock block prev tip).nextOf index.hash = node.nextOf index.hash := by
  intro index hMem
  have hEntry := hEntries index hMem
  rw [hTree.nextOf_withBlock hCandidate, if_neg (hCandidate.hash_ne hEntry), if_neg]
  intro hEq
  rw [← hEq, candidate_entry hCandidate] at hEntry
  exact hOff (Option.some.inj hEntry ▸ hMem)

theorem entry_of_mem_activeChain (hTree : node.Tree) :
    ∀ index ∈ node.activeChain, node.entry index.hash = some index := by
  obtain ⟨active, hActive⟩ := hTree.exists_active
  rw [activeChain_of_active hActive]
  exact hTree.entry_of_mem_chainTo _ _

/-- A block that does not become the active tip misleads its parent's pointer if the parent is on the active
chain. -/
theorem nextFollows_stay_iff (hTree : node.Tree) (hCandidate : node.Candidate block prev active)
    (hNull : prev.hash ≠ Uint256.null) (hBits : block.nBits = proofOfWorkLimit) (hFollows : node.NextFollows)
    (hOther : block.hashPrevBlock ≠ active.hash) (tip : Bool)
    (hActive : (node.withBlock block prev tip).tips.getActiveTip = some active) :
    (node.withBlock block prev tip).NextFollows ↔ prev.core ∉ node.activeChain := by
  have hTree' := hTree.withBlock hCandidate hNull hBits tip
  have hActiveEntry := hTree.active_entry hCandidate.active
  have hOld := activeChain_of_active hCandidate.active
  have hChain : (node.withBlock block prev tip).activeChain = node.activeChain := by
    rw [activeChain_of_active hActive, hTree.chainTo_withBlock hCandidate tip _ hActiveEntry, hOld]
  constructor
  · intro hFollows' hOn
    have hNext : (node.withBlock block prev tip).nextOf prev.core.hash = some block.getHash := by
      have hNe := hCandidate.hash_ne (hTree.entry_of_mem_activeChain _ hOn)
      rw [hTree.nextOf_withBlock hCandidate, if_neg hNe, if_pos]
      exact (hTree.prev_hash hCandidate).symm
    rw [← hChain] at hOn
    rcases hTree'.next_cases hActive hFollows' hOn hNext with ⟨hEq, -⟩ | ⟨child, hChild, hHash⟩
    · exact hTree.prev_core_ne_active hCandidate hOther hEq
    · rw [hChain] at hChild
      exact hCandidate.hash_ne (hTree.entry_of_mem_activeChain child hChild) hHash.symm
  · intro hOff
    have hKeep := hTree.nextOf_withBlock_of_mem hCandidate tip hTree.entry_of_mem_activeChain hOff
    obtain ⟨hLinks, hEnd⟩ := (hTree.nextFollows_iff hCandidate.active).mp hFollows
    rw [hTree'.nextFollows_iff hActive, hChain]
    constructor
    · intro index hIndex hNe
      obtain ⟨-, parent, hParent, -⟩ := hTree.parent _ index (hTree.entry_of_mem_activeChain index hIndex) hNe
      have hParentMem : parent ∈ node.activeChain := by
        rw [hOld] at hIndex ⊢
        exact hTree.parent_mem_chainTo hActiveEntry index hIndex hNe parent hParent
      rw [← hLinks index hIndex hNe, ← hTree.keyed _ parent hParent]
      exact hKeep parent hParentMem
    · rw [← hEnd]
      refine hKeep active ?_
      rw [hOld]
      exact mem_chainTo_self hActiveEntry _

/-- The pointers lead to every entry of a chain just if they lead to its top. -/
theorem linked_iff_mem (hTree : node.Tree) (hActive : node.tips.getActiveTip = some active)
    (hFollows : node.NextFollows) {h : Uint256} {index : BlockIndex} (hEntry : node.entry h = some index)
    (hNull : h ≠ Uint256.null) :
    (∀ other ∈ node.chainTo (index.height.toNat + 1) h, other.hash ≠ params.hashGenesisBlock →
        node.nextOf other.hashPrevBlock = some other.hash) ↔ index ∈ node.activeChain := by
  have hActiveEntry := hTree.active_entry hActive
  have hOld := activeChain_of_active hActive
  constructor
  · intro hLinks
    apply Decidable.byContradiction
    intro hOff
    have hGenesis : genesisIndex ∈ node.activeChain := by
      rw [hOld]
      exact hTree.genesis_mem_chainTo hActiveEntry
    obtain ⟨other, hOther, parent, hParent, hOtherOff, hNe, hLink, hOtherNull⟩ :=
      hTree.exists_departure hGenesis hEntry hOff
    have hNext := hLinks other hOther hNe
    rw [← hTree.keyed _ parent hLink] at hNext
    rcases hTree.next_cases hActive hFollows hParent hNext with ⟨-, hIsNull⟩ | ⟨child, hChild, hHash⟩
    · rcases hOtherNull with rfl | hOtherNull
      · exact hNull ((hTree.keyed h other hEntry).symm.trans hIsNull)
      · exact hOtherNull hIsNull
    · have hChildEntry := hTree.entry_of_mem_activeChain child hChild
      rw [hHash, hTree.entry_of_mem_chainTo _ _ other hOther] at hChildEntry
      exact hOtherOff (Option.some.inj hChildEntry ▸ hChild)
  · intro hOn other hOther hNe
    refine ((hTree.nextFollows_iff hActive).mp hFollows).1 other ?_ hNe
    rw [hOld] at hOn ⊢
    exact hTree.chainTo_subset hActiveEntry hEntry hOn hOther

/-- A block that becomes the active tip is at the end of the pointers if its parent was on the active chain. -/
theorem nextFollows_move_iff (hTree : node.Tree) (hCandidate : node.Candidate block prev active)
    (hNull : prev.hash ≠ Uint256.null) (hBits : block.nBits = proofOfWorkLimit) (hFollows : node.NextFollows)
    {tip : Bool} (hActive : (node.withBlock block prev tip).tips.getActiveTip = some (newIndex block prev)) :
    (node.withBlock block prev tip).NextFollows ↔ prev.core ∈ node.activeChain := by
  have hTree' := hTree.withBlock hCandidate hNull hBits tip
  have hPrev := candidate_entry hCandidate
  have hPrevNull : block.hashPrevBlock ≠ Uint256.null := by rwa [← hTree.prev_hash hCandidate]
  have hNewPrev := hCandidate.hash_ne hPrev
  rw [← hTree.linked_iff_mem hCandidate.active hFollows hPrev hPrevNull, hTree'.nextFollows_iff hActive,
    activeChain_of_active hActive, newIndex_hash, newIndex_height,
    hTree.chainTo_withBlock_new hCandidate hNull hBits, BlockIndex.core_height]
  -- below the parent no pointer has changed
  have hBelow : ∀ other ∈ node.chainTo (prev.height.toNat + 1) block.hashPrevBlock,
      other.hash ≠ params.hashGenesisBlock →
        (node.withBlock block prev tip).nextOf other.hashPrevBlock = node.nextOf other.hashPrevBlock := by
    intro other hOther hNe
    have hOtherEntry := hTree.entry_of_mem_chainTo _ _ other hOther
    obtain ⟨-, parent, hParent, hHeight⟩ := hTree.parent _ other hOtherEntry hNe
    rw [hTree.nextOf_withBlock hCandidate, if_neg (hCandidate.hash_ne hParent), if_neg]
    intro hEq
    rw [← hEq, hPrev] at hParent
    cases hParent
    rw [BlockIndex.core_height] at hHeight
    rcases hTree.eq_or_height_lt_of_mem_chainTo hPrev other hOther with rfl | hLt
    · rw [BlockIndex.core_height] at hHeight
      omega
    · rw [BlockIndex.core_height] at hLt
      omega
  constructor
  · rintro ⟨hLinks, -⟩ other hOther hNe
    rw [← hBelow other hOther hNe]
    exact hLinks other (List.mem_append_left _ hOther) hNe
  · intro hLinks
    refine ⟨?_, ?_⟩
    · intro other hOther hNe
      rcases List.mem_append.mp hOther with hOther | hOther
      · rw [hBelow other hOther hNe]
        exact hLinks other hOther hNe
      · obtain rfl := List.mem_singleton.mp hOther
        rw [newIndex_hashPrevBlock, hTree.nextOf_withBlock hCandidate, if_neg hNewPrev, if_pos rfl, newIndex_hash]
    · rw [hTree.nextOf_withBlock hCandidate, if_pos rfl]

theorem rival_not_mem (hTree : node.Tree) (hCandidate : node.Candidate block prev active)
    (hRival : node.Rival block prev active) : prev.core ∉ node.activeChain := by
  intro hOn
  rw [activeChain_of_active hCandidate.active] at hOn
  rcases hTree.eq_or_height_lt_of_mem_chainTo (hTree.active_entry hCandidate.active) _ hOn with hEq | hLt
  · exact hTree.prev_core_ne_active hCandidate hRival.other hEq
  · rw [BlockIndex.core_height, hRival.height] at hLt
    omega

theorem keepsNext_withBlock_iff (hTree : node.Tree) (hCandidate : node.Candidate block prev active)
    (hNull : prev.hash ≠ Uint256.null) (hBits : block.nBits = proofOfWorkLimit) (hFollows : node.NextFollows)
    (hIndex : node'.blockIndex = (node.withBlock block prev true).blockIndex)
    (hTips : node'.tips = (node.withBlock block prev true).tips) :
    KeepsNext node node' ↔ (BlockTipManager.Beats (newIndex block prev) active ↔ prev.core ∈ node.activeChain) := by
  have hActive := hTree.activeTip_withBlock hCandidate
  have hCongr := nextFollows_congr hIndex hTips
  have hNext : node'.nextOf = (node.withBlock block prev true).nextOf := by
    funext h
    rw [nextOf, nextOf, hIndex]
  by_cases hBeats : BlockTipManager.Beats (newIndex block prev) active
  · rw [if_pos hBeats] at hActive
    have hMove := hTree.nextFollows_move_iff hCandidate hNull hBits hFollows hActive
    simp only [hBeats, true_iff]
    constructor
    · intro hKeeps
      exact hMove.mp (hCongr.mp hKeeps.follows)
    · intro hOn
      refine ⟨hCongr.mpr (hMove.mpr hOn), ?_⟩
      intro hSame
      rw [hTips, hActive, hCandidate.active] at hSame
      have hNe := hCandidate.hash_ne (hTree.active_entry hCandidate.active)
      rw [← Option.some.inj hSame, newIndex_hash] at hNe
      exact absurd rfl hNe
  · rw [if_neg hBeats] at hActive
    have hOther : block.hashPrevBlock ≠ active.hash := by
      intro hTop
      have hHeight := height_eq_of_onTop hTree hCandidate hTop
      exact hBeats (.inl (by rw [newIndex_height]; omega))
    have hStay := hTree.nextFollows_stay_iff hCandidate hNull hBits hFollows hOther true hActive
    simp only [hBeats, false_iff]
    constructor
    · intro hKeeps
      exact hStay.mp (hCongr.mp hKeeps.follows)
    · intro hOff
      refine ⟨hCongr.mpr (hStay.mpr hOff), ?_⟩
      intro _
      rw [hNext]
      exact hTree.nextOf_withBlock_of_mem hCandidate true hTree.entry_of_mem_activeChain hOff

end Tree

end WithBlock

theorem keepsNext_same {node node' : Node} (hFollows : node.NextFollows) (hIndex : node'.blockIndex = node.blockIndex)
    (hTips : node'.tips = node.tips) : KeepsNext node node' := by
  refine ⟨hFollows.congr hIndex hTips, ?_⟩
  intro _ index _
  rw [nextOf, nextOf, hIndex]

theorem not_misleads_onTop {verifyScript : VerifyScript} {node : Node} {block : Block} {prev active : BlockIndex}
    (hTop : block.hashPrevBlock = active.hash) : ¬ Misleads verifyScript node block prev active := by
  rintro ⟨-, -, ⟨hBeside, -⟩ | ⟨hRival, -⟩⟩
  · exact hBeside.other hTop
  · exact hRival.other hTop

/-- One call keeps the pointers along the active chain unless its block misleads them. -/
theorem NextFollows.keepsNext_iff {node : Node} (hFollows : node.NextFollows) (hTree : node.Tree)
    (verifyScript : VerifyScript) (block : Block) : KeepsNext node (acceptBlock verifyScript node block).node ↔
      ∀ prev active, node.Candidate block prev active → ¬ Misleads verifyScript node block prev active := by
  have hCase := hTree.acceptBlock_cases verifyScript block
  generalize acceptBlock verifyScript node block = outcome at hCase
  cases hCase with
  | known hKnown =>
    exact iff_of_true (keepsNext_same hFollows rfl rfl) (forall_candidate_of_known hKnown)
  | orphan hNew hParent =>
    obtain ⟨orphanBlocks, hNode⟩ := acceptOrphan_node node block
    refine iff_of_true (keepsNext_same hFollows ?_ ?_) (Tree.forall_candidate_of_orphan hParent)
    · rw [hNode]
    · rw [hNode]
  | extended memPool hCandidate hTop hOk hValid hNull =>
    have hHeight := height_eq_of_onTop hTree hCandidate hTop
    rw [forall_candidate_iff hCandidate]
    refine Iff.trans (hTree.keepsNext_withBlock_iff hCandidate hNull ((blockOk_iff _).mp hOk).2.1 hFollows ?_ ?_) ?_
    · rfl
    · rfl
    refine iff_of_true (iff_of_true (.inl (by rw [newIndex_height]; omega)) ?_) ?_
    · rw [hTree.prev_core_eq_active hCandidate hTop, activeChain_of_active hCandidate.active]
      exact Tree.mem_chainTo_self (hTree.active_entry hCandidate.active) _
    · exact not_misleads_onTop hTop
  | notExtended hCandidate hTop =>
    rw [forall_candidate_iff hCandidate]
    exact iff_of_true (keepsNext_same hFollows rfl rfl) (not_misleads_onTop hTop)
  | branched hCandidate hBeside hOk hNull =>
    have hPrevNull := hTree.prev_hash hCandidate ▸ hNull
    rw [forall_candidate_iff hCandidate, Misleads, hTree.checkBlock_eq, hOk,
      hTree.keepsNext_withBlock_iff hCandidate hNull ((blockOk_iff _).mp hOk).2.1 hFollows rfl rfl]
    simp [hBeside, hBeside.not_rival, hPrevNull]
  | notBranched hCandidate hBeside hNot =>
    rw [forall_candidate_iff hCandidate, Misleads, hTree.checkBlock_eq, Except.ok.injEq, ← hTree.prev_hash hCandidate]
    refine iff_of_true (keepsNext_same hFollows rfl rfl) ?_
    rintro ⟨hOk, hNull, -⟩
    exact hNot ⟨hOk, hNull⟩
  | crashed hCandidate hRival hBad =>
    rw [forall_candidate_iff hCandidate]
    refine iff_of_true (keepsNext_same hFollows rfl rfl) ?_
    rintro ⟨-, hNull, ⟨hBeside, -⟩ | ⟨-, hOne, -⟩⟩
    · exact hBeside.not_rival hRival
    · rcases hBad with hBad | ⟨hHigh, -⟩
      · exact hNull hBad
      · omega
  | notOvertaken hCandidate hRival hNull hNot =>
    rw [forall_candidate_iff hCandidate, Misleads, hTree.checkBlock_eq, hNot]
    exact iff_of_true (keepsNext_same hFollows rfl rfl) (by simp)
  | savedOnly hCandidate hRival hNull hHeight hOk hCheck =>
    rw [forall_candidate_iff hCandidate]
    have hOff := hTree.rival_not_mem hCandidate hRival
    have hStay := hTree.nextFollows_stay_iff hCandidate (hTree.prev_hash hCandidate ▸ hNull)
      ((blockOk_iff _).mp hOk).2.1 hFollows hRival.other false hCandidate.active
    refine iff_of_true ⟨hStay.mpr hOff, fun _ => ?_⟩ ?_
    · exact hTree.nextOf_withBlock_of_mem hCandidate false hTree.entry_of_mem_activeChain hOff
    · rintro ⟨-, -, ⟨hBeside, -⟩ | ⟨-, -, result, hResult⟩⟩
      · exact hBeside.not_rival hRival
      · rcases hCheck with ⟨fault, hFault, -⟩ | ⟨hNone, -⟩
        · cases hFault.symm.trans hResult
        · cases hNone.symm.trans hResult
  | reorganised memPool hCandidate hRival hNull hHeight hOk hCheck =>
    rw [forall_candidate_iff hCandidate]
    refine Iff.trans (hTree.keepsNext_withBlock_iff hCandidate (hTree.prev_hash hCandidate ▸ hNull)
      ((blockOk_iff _).mp hOk).2.1 hFollows ?_ ?_) ?_
    · rfl
    · rfl
    refine iff_of_false ?_ ?_
    · intro hIff
      refine hTree.rival_not_mem hCandidate hRival (hIff.mp (.inl ?_))
      rw [newIndex_height, hRival.height]
      omega
    · intro hNot
      refine hNot ⟨?_, hNull, .inr ⟨hRival, hHeight, _, hCheck⟩⟩
      rw [hTree.checkBlock_eq, hOk]

theorem initial_nextFollows : initial.NextFollows := by
  refine (initial_tree.nextFollows_iff initial_activeTip).mpr ⟨?_, ?_⟩
  · intro index hIndex hNe
    obtain ⟨hHash, -⟩ := initial_entry_cases (initial_tree.entry_of_mem_activeChain index hIndex)
    exact absurd hHash hNe
  · rw [nextOf, initial_eq]
    exact congrArg (Option.map BlockIndex.hashNextBlock) (lookup_insert_self ..)

theorem Run.nextFollows {verifyScript : VerifyScript} {node : Node}
    (hRun : Run verifyScript (fun node block => ∀ prev active, node.Candidate block prev active →
      ¬ Misleads verifyScript node block prev active) node) : node.Tree ∧ node.NextFollows := by
  refine hRun.invariant initial_nextFollows ?_
  intro node block node' result hTree hFollows hAllowed hAccept
  have hKeeps := (hFollows.keepsNext_iff hTree verifyScript block).mpr hAllowed
  rw [hAccept] at hKeeps
  exact hKeeps.follows

/-- In a run without a misleading block the pointers follow the active chain, and a call keeps them so just
if its block does not mislead them. -/
theorem Run.nextFollows_and_keepsNext_iff {verifyScript : VerifyScript} {node : Node}
    (hRun : Run verifyScript (fun node block => ∀ prev active, node.Candidate block prev active →
      ¬ Misleads verifyScript node block prev active) node) :
    node.NextFollows ∧ ∀ block, KeepsNext node (acceptBlock verifyScript node block).node ↔
      ∀ prev active, node.Candidate block prev active → ¬ Misleads verifyScript node block prev active :=
  ⟨hRun.nextFollows.2, hRun.nextFollows.2.keepsNext_iff hRun.nextFollows.1 verifyScript⟩

theorem firstRival_run : Run anyScript (fun node block => ∀ prev active, node.Candidate block prev active →
    ¬ Misleads anyScript node block prev active) (acceptAll anyScript initial [rivalBlock 1]) := by
  have hReturns := tied_evaluated.1
  rw [returnsAll, Bool.and_eq_true] at hReturns
  refine .tail .refl ⟨rivalBlock 1, ?_, step_of_isOk hReturns.1⟩
  intro prev active hCandidate
  cases initial_activeTip.symm.trans hCandidate.active
  rintro ⟨-, -, ⟨hBeside, -⟩ | ⟨hRival, -⟩⟩
  · exact hBeside.other rfl
  · exact hRival.other rfl

theorem nextFollows_and_keepsNext_iff_firstRival : (acceptAll anyScript initial [rivalBlock 1]).NextFollows ∧
    ∀ block, KeepsNext (acceptAll anyScript initial [rivalBlock 1])
        (acceptBlock anyScript (acceptAll anyScript initial [rivalBlock 1]) block).node ↔
      ∀ prev active, (acceptAll anyScript initial [rivalBlock 1]).Candidate block prev active →
        ¬ Misleads anyScript (acceptAll anyScript initial [rivalBlock 1]) block prev active :=
  firstRival_run.nextFollows_and_keepsNext_iff

/-- The second one joins a side branch, and the genesis block then points to it. -/
theorem exists_sideBranch_misleads : ∃ (verifyScript : VerifyScript) (node node' : Node) (block : Block),
    Reachable verifyScript node ∧ node.NextFollows ∧ acceptBlock verifyScript node block = ⟨node', .ok true⟩ ∧
      node'.tips.getActiveTip = node.tips.getActiveTip ∧ ¬ node'.NextFollows ∧
      node'.nextOf params.hashGenesisBlock ≠ node.nextOf params.hashGenesisBlock := by
  have hEvaluated : (acceptBlock anyScript (acceptAll anyScript initial [rivalBlock 1]) (rivalBlock 2)).result = .ok true ∧
      tied.tips.getActiveTip = (acceptAll anyScript initial [rivalBlock 1]).tips.getActiveTip ∧
      tied.nextOf params.hashGenesisBlock = some (rivalBlock 2).getHash ∧
      (acceptAll anyScript initial [rivalBlock 1]).nextOf params.hashGenesisBlock = some (rivalBlock 1).getHash ∧
      (rivalBlock 1).getHash ≠ (rivalBlock 2).getHash ∧ (rivalBlock 1).getHash ≠ params.hashGenesisBlock := by
    decide +kernel
  obtain ⟨hResult, hTips, hNext, hOld, hNe, hGenesis⟩ := hEvaluated
  refine ⟨anyScript, acceptAll anyScript initial [rivalBlock 1], tied, rivalBlock 2, firstRival_run.reachable,
    firstRival_run.nextFollows.2, ?_, hTips, ?_, ?_⟩
  · rw [← hResult]
    rfl
  · intro hFollows
    obtain ⟨hLinks, -⟩ := (tied_reachable.tree.nextFollows_iff tied_activeTip).mp hFollows
    have hMem : BlockIndex.make 1 (rivalBlock 1).getHash params.hashGenesisBlock ∈ tied.activeChain := by
      rw [activeChain_of_active tied_activeTip]
      exact Tree.mem_chainTo_self (tied_reachable.tree.active_entry tied_activeTip) _
    have hLink := hLinks _ hMem hGenesis
    exact hNe (Option.some.inj (hLink.symm.trans hNext))
  · rw [hNext, hOld]
    exact fun hEq => hNe (Option.some.inj hEq).symm

end Node

end BitcoinGpuMiner
