import Mathlib.Data.Finset.Dedup
import BitcoinGpuMiner.Foundation.Transitions
import BitcoinGpuMiner.Model.InitialBlockDownload

/-! # What a message does to the download

The two loops are given by the part of the queue they take and the hashes they add. `StepCase` lists what
handling one message can do.
-/

namespace BitcoinGpuMiner

open Foundation

set_option autoImplicit false

namespace InitialBlockDownloadManager

theorem announce_eq (manager : InitialBlockDownloadManager) (headers : List BlockHeader) :
    manager.announce headers = { manager with
      hashIBDBlocks := manager.hashIBDBlocks ∪ (headers.map BlockHeader.getHash).toFinset
      hashSendingGetData := manager.hashSendingGetData ++ headers.map BlockHeader.getHash } := by
  induction headers generalizing manager with
  | nil => simp [announce]
  | cons header rest ih =>
    rw [announce, List.foldl_cons]
    refine (ih _).trans ?_
    simp

theorem takeRequests_eq (manager : InitialBlockDownloadManager) (invs : List Uint256) (count : Nat) :
    manager.takeRequests invs count =
      ({ manager with
        hashDownloadingBlock := manager.hashDownloadingBlock ∪ (manager.hashSendingGetData.take count).toFinset
        hashSendingGetData := manager.hashSendingGetData.drop count }, invs ++ manager.hashSendingGetData.take count) := by
  induction count generalizing manager invs with
  | zero => simp [takeRequests]
  | succ count ih =>
    rw [takeRequests]
    split
    case h_1 hEmpty =>
      cases manager
      simp_all
    case h_2 hash rest hCons =>
      rw [ih]
      simp [hCons]

end InitialBlockDownloadManager

namespace Download

variable {Chain : Type}

section Fields

variable (state : Download Chain)

theorem manager_pushGetDataMessage : state.pushGetDataMessage.manager = { state.manager with
    hashDownloadingBlock :=
      state.manager.hashDownloadingBlock ∪ (state.manager.hashSendingGetData.take 16).toFinset
    hashSendingGetData := state.manager.hashSendingGetData.drop 16 } := by
  rw [pushGetDataMessage, InitialBlockDownloadManager.takeRequests_eq]

end Fields

/-- The state after a batch of headers, up to the flag and the message that depend on its size. -/
def withHeaders (state : Download Chain) (headers : List BlockHeader) : Download Chain :=
  pushGetDataMessage
    { state with manager := { state.manager with isFirstHeaders := false }.announce headers }

/-- The state after a block has been accepted, before the next blocks are asked for. -/
def withBlock (state : Download Chain) (chain : Chain) (hash : Uint256) : Download Chain :=
  { state with
    chain := chain
    manager := { state.manager with
      hashIBDBlocks := state.manager.hashIBDBlocks.erase hash
      hashDownloadingBlock := state.manager.hashDownloadingBlock.erase hash } }

def notified (state : Download Chain) : Download Chain :=
  if state.manager.notifyIBDCompleteCallback then { state with completions := state.completions + 1 } else state

inductive StepCase (access : ChainAccess Chain) (state : Download Chain) : SyncMessage → Download Chain → Prop where
  | verack (sent : List Request) : StepCase access state .verack { state with sent := sent }
  | finishedHeaders (headers : List BlockHeader) (hFinish : state.manager.isFinish = true) :
      StepCase access state (.headers headers) state
  | finishedBlock (block : Block) (chain : Chain) (accepted : Bool) (hFinish : state.manager.isFinish = true)
      (hAccept : access.acceptBlock state.chain block = (chain, .ok accepted)) :
      StepCase access state (.block block) { state with chain := chain }
  | firstEmpty (hFinish : state.manager.isFinish = false) (hFirst : state.manager.isFirstHeaders = true) :
      StepCase access state (.headers [])
        (notified { state with manager := { state.manager with isGetHeaders := true } }).finish
  | laterEmpty (hFinish : state.manager.isFinish = false) (hFirst : state.manager.isFirstHeaders = false) :
      StepCase access state (.headers []) { state with manager := { state.manager with isGetHeaders := true } }
  | lastHeaders (headers : List BlockHeader) (hFinish : state.manager.isFinish = false) (hSome : headers ≠ [])
      (hSize : headers.length < 2000) : StepCase access state (.headers headers)
        { state.withHeaders headers with manager := { (state.withHeaders headers).manager with isGetHeaders := true } }
  | moreHeaders (headers : List BlockHeader) (sent : List Request) (hFinish : state.manager.isFinish = false)
      (hSome : headers ≠ []) (hSize : 2000 ≤ headers.length) :
      StepCase access state (.headers headers) { state.withHeaders headers with sent := sent }
  | ignored (block : Block) (hFinish : state.manager.isFinish = false)
      (hNot : block.getHash ∉ state.manager.hashIBDBlocks) : StepCase access state (.block block) state
  | refused (block : Block) (chain : Chain) (hFinish : state.manager.isFinish = false)
      (hMem : block.getHash ∈ state.manager.hashIBDBlocks)
      (hAccept : access.acceptBlock state.chain block = (chain, .ok false)) :
      StepCase access state (.block block) { state with chain := chain }
  | completed (block : Block) (chain : Chain) (hFinish : state.manager.isFinish = false)
      (hMem : block.getHash ∈ state.manager.hashIBDBlocks)
      (hAccept : access.acceptBlock state.chain block = (chain, .ok true))
      (hLast : state.manager.isGetHeaders = true ∧ state.manager.hashIBDBlocks.erase block.getHash = ∅) :
      StepCase access state (.block block) (state.withBlock chain block.getHash).finish.notified
  | continued (block : Block) (chain : Chain) (hFinish : state.manager.isFinish = false)
      (hMem : block.getHash ∈ state.manager.hashIBDBlocks)
      (hAccept : access.acceptBlock state.chain block = (chain, .ok true))
      (hLast : ¬ (state.manager.isGetHeaders = true ∧ state.manager.hashIBDBlocks.erase block.getHash = ∅)) :
      StepCase access state (.block block)
        (if state.manager.hashDownloadingBlock.erase block.getHash = ∅ then
          (state.withBlock chain block.getHash).pushGetDataMessage
        else state.withBlock chain block.getHash)

variable {access : ChainAccess Chain} {state state' : Download Chain}

@[simp] theorem manager_withHeaders (headers : List BlockHeader) : (state.withHeaders headers).manager =
    { state.manager with
      isFirstHeaders := false
      hashIBDBlocks := state.manager.hashIBDBlocks ∪ (headers.map BlockHeader.getHash).toFinset
      hashDownloadingBlock := state.manager.hashDownloadingBlock ∪
        ((state.manager.hashSendingGetData ++ headers.map BlockHeader.getHash).take 16).toFinset
      hashSendingGetData := (state.manager.hashSendingGetData ++ headers.map BlockHeader.getHash).drop 16 } := by
  rw [withHeaders, manager_pushGetDataMessage, InitialBlockDownloadManager.announce_eq]

@[simp] theorem manager_notified : state.notified.manager = state.manager := by
  rw [notified]
  split <;> rfl

@[simp] theorem chain_notified : state.notified.chain = state.chain := by
  rw [notified]
  split <;> rfl

theorem step_eq_some_iff {message : SyncMessage} : state.step access message = some state' ↔
    state.processMessageHandler access message = .ok state' := by
  rw [step]
  cases state.processMessageHandler access message <;> simp [Except.toOption]

theorem eq_of_pushGetHeadersMessage (hPush : state.pushGetHeadersMessage access = .ok state') :
    ∃ sent, state' = { state with sent := sent } := by
  rw [pushGetHeadersMessage] at hPush
  split at hPush
  · cases hPush
  · cases hPush
    exact ⟨_, rfl⟩

theorem eq_of_ibdComplete (hComplete : state.ibdComplete access = .ok state') : state' = state.notified := by
  rw [ibdComplete] at hComplete
  split at hComplete
  · cases hComplete
  · cases hComplete
    rfl

theorem map_eq_ok {α β : Type} {f : α → β} {value : Except Fault α} {result : β} (hMap : value.map f = .ok result) :
    ∃ a, value = .ok a ∧ f a = result := by
  cases value with
  | error fault => cases hMap
  | ok a => exact ⟨a, rfl, Except.ok.inj hMap⟩

theorem stepCase_headers {headers : List BlockHeader} {finished : Bool}
    (hHeaders : state.headers access headers = .ok (state', finished)) :
    StepCase access state (.headers headers) state' := by
  unfold Download.headers at hHeaders
  split at hHeaders
  case isTrue hFinish =>
    cases hHeaders
    exact .finishedHeaders headers hFinish
  case isFalse hFinish =>
  rw [Bool.not_eq_true] at hFinish
  split at hHeaders
  case isTrue hEmpty =>
    obtain rfl := List.isEmpty_iff.mp hEmpty
    dsimp only at hHeaders
    split at hHeaders
    case isTrue hFirst =>
      obtain ⟨called, hCalled, hReturn⟩ := map_eq_ok hHeaders
      cases hReturn
      rw [eq_of_ibdComplete hCalled]
      exact .firstEmpty hFinish hFirst
    case isFalse hFirst =>
      cases hHeaders
      exact .laterEmpty hFinish (Bool.not_eq_true _ ▸ hFirst)
  case isFalse hEmpty =>
    have hSome : headers ≠ [] := fun hNil => hEmpty (List.isEmpty_iff.mpr hNil)
    dsimp only at hHeaders
    split at hHeaders
    case isTrue hSize =>
      cases hHeaders
      exact .lastHeaders headers hFinish hSome hSize
    case isFalse hSize =>
      obtain ⟨pushed, hPushed, hReturn⟩ := map_eq_ok hHeaders
      cases hReturn
      obtain ⟨sent, rfl⟩ := eq_of_pushGetHeadersMessage hPushed
      exact .moreHeaders headers sent hFinish hSome (Nat.le_of_not_lt hSize)

/-- Only a finished download passes the block on. -/
theorem stepCase_blocks {block : Block} {finished : Bool} (hBlocks : state.blocks access block = .ok (state', finished)) :
    (finished = true ∧ state.manager.isFinish = true ∧ state' = state) ∨
      (finished = false ∧ StepCase access state (.block block) state') := by
  unfold blocks at hBlocks
  split at hBlocks
  case isTrue hFinish =>
    cases hBlocks
    exact .inl ⟨rfl, hFinish, rfl⟩
  case isFalse hFinish =>
  rw [Bool.not_eq_true] at hFinish
  dsimp only at hBlocks
  right
  split at hBlocks
  case isTrue hNot =>
    cases hBlocks
    exact ⟨rfl, .ignored block hFinish hNot⟩
  case isFalse hNot =>
  have hMem := Decidable.not_not.mp hNot
  split at hBlocks
  · cases hBlocks
  case h_2 chain hAccept =>
    cases hBlocks
    exact ⟨rfl, .refused block chain hFinish hMem hAccept⟩
  case h_3 chain hAccept =>
    split at hBlocks
    case isTrue hLast =>
      obtain ⟨called, hCalled, hReturn⟩ := map_eq_ok hBlocks
      cases hReturn
      rw [eq_of_ibdComplete hCalled]
      exact ⟨rfl, .completed block chain hFinish hMem hAccept hLast⟩
    case isFalse hLast =>
      have hCase := StepCase.continued block chain hFinish hMem hAccept hLast
      split at hBlocks
      case isTrue hEmpty =>
        cases hBlocks
        rw [if_pos hEmpty] at hCase
        exact ⟨rfl, hCase⟩
      case isFalse hEmpty =>
        cases hBlocks
        rw [if_neg hEmpty] at hCase
        exact ⟨rfl, hCase⟩

theorem step_cases {message : SyncMessage} (hStep : state.step access message = some state') :
    StepCase access state message state' := by
  rw [step_eq_some_iff] at hStep
  cases message with
  | verack =>
    obtain ⟨sent, rfl⟩ := eq_of_pushGetHeadersMessage hStep
    exact .verack sent
  | headers headers =>
    obtain ⟨⟨result, finished⟩, hHeaders, rfl⟩ := map_eq_ok hStep
    exact stepCase_headers hHeaders
  | block block =>
    rw [processMessageHandler] at hStep
    split at hStep
    · cases hStep
    case h_2 result hBlocks =>
      cases hStep
      rcases stepCase_blocks hBlocks with ⟨hFalse, -⟩ | ⟨-, hCase⟩
      · cases hFalse
      · exact hCase
    case h_3 result hBlocks =>
      rcases stepCase_blocks hBlocks with ⟨-, hFinish, rfl⟩ | ⟨hFalse, -⟩
      · split at hStep
        · cases hStep
        case h_2 chain accepted hAccept =>
          cases hStep
          exact .finishedBlock block chain accepted hFinish hAccept
      · cases hFalse

end Download

end BitcoinGpuMiner
