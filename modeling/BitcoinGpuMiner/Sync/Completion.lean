import BitcoinGpuMiner.Chain.PlainBlock
import BitcoinGpuMiner.Sync.Steps

/-! # The end of the download

The download ends with an accepted block or with an empty first batch of headers. An empty batch that comes
later only sets a flag, so if no block is outstanding by then, the end is missed.
-/

namespace BitcoinGpuMiner

open Foundation

set_option autoImplicit false

namespace Download

variable {Chain : Type}

/-- All headers have been fetched and no block is outstanding only if the download has ended, and the callback
has been called once if it has and never if it has not. -/
structure Completes (state : Download Chain) : Prop where
  ended : state.manager.isGetHeaders = true → state.manager.hashIBDBlocks = ∅ → state.manager.isFinish = true
  notifiedOnce : state.completions = if state.manager.isFinish then 1 else 0

/-- The message is not an empty batch, after the first one, that finds no block outstanding. -/
def EndsInTime (state : Download Chain) (message : SyncMessage) : Prop :=
  message = .headers [] → state.manager.isFinish = false → state.manager.isFirstHeaders = false →
    state.manager.hashIBDBlocks ≠ ∅

/-- What every message keeps. -/
structure Notifies (state : Download Chain) : Prop where
  callback : state.manager.notifyIBDCompleteCallback = true
  once : state.completions = if state.manager.isFinish then 1 else 0

section Step

variable {access : ChainAccess Chain} {state state' : Download Chain} {message : SyncMessage}

theorem completions_notified (hCallback : state.manager.notifyIBDCompleteCallback = true) :
    state.notified.completions = state.completions + 1 := by
  rw [notified, if_pos hCallback]

theorem Notifies.step (hNotifies : state.Notifies) (hStep : state.step access message = some state') :
    state'.Notifies := by
  obtain ⟨hCallback, hOnce⟩ := hNotifies
  cases step_cases hStep with
  | verack | finishedHeaders | finishedBlock | laterEmpty | ignored | refused => exact ⟨hCallback, hOnce⟩
  | lastHeaders headers | moreHeaders headers =>
    refine ⟨?_, ?_⟩
    · rw [manager_withHeaders]
      exact hCallback
    · rw [manager_withHeaders]
      exact hOnce
  | firstEmpty hFinish =>
    refine ⟨?_, ?_⟩
    · simpa [finish] using hCallback
    · simp only [hFinish, Bool.false_eq_true, if_false] at hOnce
      refine Eq.trans (completions_notified ?_) ?_
      · exact hCallback
      · simp [finish, hOnce]
  | completed block chain hFinish =>
    refine ⟨?_, ?_⟩
    · simpa [finish, withBlock] using hCallback
    · simp only [hFinish, Bool.false_eq_true, if_false] at hOnce
      refine Eq.trans (completions_notified ?_) ?_
      · exact hCallback
      · simp [finish, withBlock, hOnce]
  | continued block chain hFinish =>
    split
    · refine ⟨?_, ?_⟩
      · rw [manager_pushGetDataMessage]
        exact hCallback
      · rw [manager_pushGetDataMessage]
        exact hOnce
    · exact ⟨hCallback, hOnce⟩

theorem completes_step_iff (hNotifies : state.Notifies)
    (hEnded : state.manager.isGetHeaders = true → state.manager.hashIBDBlocks = ∅ → state.manager.isFinish = true)
    (hStep : state.step access message = some state') : state'.Completes ↔ state.EndsInTime message := by
  have hOnce := (hNotifies.step hStep).once
  cases step_cases hStep with
  | verack => exact iff_of_true ⟨hEnded, hOnce⟩ (fun hEq => by cases hEq)
  | finishedHeaders headers hFinish =>
    refine iff_of_true ⟨hEnded, hOnce⟩ ?_
    intro _ hNot
    cases hFinish.symm.trans hNot
  | finishedBlock | ignored | refused => exact iff_of_true ⟨hEnded, hOnce⟩ (fun hEq => by cases hEq)
  | firstEmpty hFinish hFirst =>
    refine iff_of_true ⟨fun _ _ => rfl, hOnce⟩ ?_
    intro _ _ hLater
    cases hFirst.symm.trans hLater
  | laterEmpty hFinish hFirst =>
    constructor
    · rintro ⟨hEnded', -⟩ _ _ _ hNone
      cases hFinish.symm.trans (hEnded' rfl hNone)
    · intro hInTime
      exact ⟨fun _ hNone => absurd hNone (hInTime rfl hFinish hFirst), hOnce⟩
  | lastHeaders headers hFinish hSome | moreHeaders headers sent hFinish hSome =>
    refine iff_of_true ⟨?_, hOnce⟩ ?_
    · intro _ hNone
      simp [hSome] at hNone
    · intro hEq
      cases hEq
      exact absurd rfl hSome
  | completed => exact iff_of_true ⟨fun _ _ => by simp [finish], hOnce⟩ (fun hEq => by cases hEq)
  | continued block chain hFinish hMem hAccept hLast =>
    refine iff_of_true ⟨?_, hOnce⟩ (fun hEq => by cases hEq)
    intro hHeaders hNone
    refine absurd ⟨?_, ?_⟩ hLast
    · split at hHeaders
      · rwa [manager_pushGetDataMessage] at hHeaders
      · exact hHeaders
    · split at hNone
      · rwa [manager_pushGetDataMessage] at hNone
      · exact hNone

end Step

/-- In a run whose empty batches come in time the download completes as it should, and a message keeps it so
just if it comes in time. -/
theorem completes_and_step_iff (access : ChainAccess Chain) {chain : Chain} {state : Download Chain}
    (hRun : Reaches (step access) EndsInTime (start chain) state) :
    state.Completes ∧ ∀ message state', state.step access message = some state' →
      (state'.Completes ↔ state.EndsInTime message) := by
  refine hRun.exact Notifies Completes (fun _ _ state' => state'.Completes) ⟨rfl, rfl⟩ ⟨?_, rfl⟩ ?_ ?_ ?_
  · intro hHeaders
    cases hHeaders
  · intro state message state' hNotifies hStep
    exact hNotifies.step hStep
  · intro state message state' hCompletes
    exact hCompletes
  · intro state message state' hNotifies hCompletes hStep
    exact completes_step_iff hNotifies hCompletes.ended hStep

section Missed

variable {access : ChainAccess Chain} {state : Download Chain}

theorem step_moreHeaders {headers : List BlockHeader} {tip : BlockIndex} (hFinish : state.manager.isFinish = false)
    (hSize : 2000 ≤ headers.length) (hTip : access.getActiveTip state.chain = some tip) :
    state.step access (.headers headers) =
      some { state.withHeaders headers with sent := (state.withHeaders headers).sent ++ [.getHeaders [tip.hash]] } := by
  have hSome : headers.isEmpty = false := by
    cases headers with
    | nil => simp at hSize
    | cons => rfl
  have hPush : (state.withHeaders headers).pushGetHeadersMessage access =
      .ok { state.withHeaders headers with sent := (state.withHeaders headers).sent ++ [.getHeaders [tip.hash]] } := by
    have hTip' : access.getActiveTip (state.withHeaders headers).chain = some tip := hTip
    rw [pushGetHeadersMessage, hTip']
  rw [step_eq_some_iff, processMessageHandler, Download.headers, if_neg (by simp [hFinish]), if_neg (by simp [hSome]),
    if_neg (Nat.not_lt.mpr hSize)]
  exact congrArg (fun result => (Except.map (fun state => (state, false)) result).map Prod.fst) hPush

theorem step_accepted {block : Block} {chain : Chain} (hFinish : state.manager.isFinish = false)
    (hMem : block.getHash ∈ state.manager.hashIBDBlocks)
    (hAccept : access.acceptBlock state.chain block = (chain, .ok true)) (hMore : state.manager.isGetHeaders = false) :
    state.step access (.block block) =
      some (if state.manager.hashDownloadingBlock.erase block.getHash = ∅ then
          (state.withBlock chain block.getHash).pushGetDataMessage
        else state.withBlock chain block.getHash) := by
  have hBlocks : state.blocks access block =
      .ok (if state.manager.hashDownloadingBlock.erase block.getHash = ∅ then
          (state.withBlock chain block.getHash).pushGetDataMessage
        else state.withBlock chain block.getHash, false) := by
    rw [blocks, if_neg (by simp [hFinish])]
    dsimp only
    rw [if_neg (by simp [hMem]), hAccept]
    dsimp only
    rw [if_neg (by simp [hMore])]
    split <;> rfl
  rw [step_eq_some_iff, processMessageHandler, hBlocks]

theorem step_laterEmpty (hFinish : state.manager.isFinish = false) (hFirst : state.manager.isFirstHeaders = false) :
    state.step access (.headers []) =
      some { state with manager := { state.manager with isGetHeaders := true } } := by
  rw [step_eq_some_iff, processMessageHandler, Download.headers, if_neg (by simp [hFinish]),
    if_pos List.isEmpty_nil]
  dsimp only
  rw [if_neg (by simp [hFirst])]
  rfl

end Missed

/-- A full batch announces one block, which arrives and is accepted before the next batch. -/
theorem exists_downloaded_before_end {access : ChainAccess Chain} {chain chain' : Chain} {tip : BlockIndex}
    {headers : List BlockHeader} {block : Block} {allowed : Download Chain → SyncMessage → Prop}
    (hSize : 2000 ≤ headers.length) (hHashes : (headers.map BlockHeader.getHash).toFinset = {block.getHash})
    (hTip : access.getActiveTip chain = some tip) (hAccept : access.acceptBlock chain block = (chain', .ok true))
    (hAllowed : ∀ state message, message ≠ .headers [] → allowed state message) :
    ∃ state, Reaches (step access) allowed (start chain) state ∧ state.manager.hashIBDBlocks = ∅ ∧
      state.manager.isFinish = false ∧ state.manager.isFirstHeaders = false := by
  have hHeaders : (start chain).step access (.headers headers) = some _ := step_moreHeaders rfl hSize hTip
  generalize hAnnounced : ({ (start chain).withHeaders headers with sent := _ } : Download Chain) = announced at hHeaders
  have hManager : ((start chain).withHeaders headers).manager = announced.manager := by rw [← hAnnounced]
  have hChain : chain = announced.chain := by rw [← hAnnounced]; rfl
  rw [manager_withHeaders, hHashes] at hManager
  have hBlocks : announced.manager.hashIBDBlocks = {block.getHash} := by
    rw [← hManager]
    simp [start, InitialBlockDownloadManager.empty, InitialBlockDownloadManager.setIBDCompleteCallback]
  have hFlags : announced.manager.isFinish = false ∧ announced.manager.isGetHeaders = false ∧
      announced.manager.isFirstHeaders = false := by
    rw [← hManager]
    exact ⟨rfl, rfl, rfl⟩
  obtain ⟨hFinish, hMore, hFirst⟩ := hFlags
  have hBlock : announced.step access (.block block) = some _ :=
    step_accepted hFinish (by simp [hBlocks]) (hChain ▸ hAccept) hMore
  have hNotEmpty : headers ≠ [] := by
    rintro rfl
    simp at hSize
  refine ⟨_, (Reaches.next .refl (hAllowed _ _ ?_) hHeaders).next (hAllowed _ _ ?_) hBlock, ?_⟩
  · intro hEq
    cases hEq
    exact hNotEmpty rfl
  · intro hEq
    cases hEq
  · split
    · rw [manager_pushGetDataMessage]
      exact ⟨by simp [withBlock, hBlocks], hFinish, hFirst⟩
    · exact ⟨by simp [withBlock, hBlocks], hFinish, hFirst⟩

section FullBatch

theorem toFinset_fullBatch :
    ((List.replicate 2000 (rivalBlock 1).toBlockHeader).map BlockHeader.getHash).toFinset =
      {(rivalBlock 1).getHash} := by
  rw [List.map_replicate, List.toFinset_replicate_of_ne_zero (by decide)]
  rfl

theorem access_acceptBlock_rivalBlock : (Node.access anyScript).acceptBlock Node.initial (rivalBlock 1) =
    ((Node.acceptBlock anyScript Node.initial (rivalBlock 1)).node, .ok true) := by
  have hResult : (Node.acceptBlock anyScript Node.initial (rivalBlock 1)).result = .ok true := by
    decide +kernel
  rw [← hResult]
  rfl

theorem exists_fullBatch_downloaded (allowed : Download Node → SyncMessage → Prop)
    (hAllowed : ∀ state message, message ≠ .headers [] → allowed state message) :
    ∃ state, Reaches (step (Node.access anyScript)) allowed (start Node.initial) state ∧
      state.manager.hashIBDBlocks = ∅ ∧ state.manager.isFinish = false ∧ state.manager.isFirstHeaders = false :=
  exists_downloaded_before_end (Nat.le_of_eq List.length_replicate.symm) toFinset_fullBatch Node.initial_activeTip
    access_acceptBlock_rivalBlock hAllowed

theorem completes_and_step_iff_fullBatch : ∃ state : Download Node,
    Reaches (step (Node.access anyScript)) EndsInTime (start Node.initial) state ∧
      state.manager.hashIBDBlocks = ∅ ∧ state.Completes ∧
      ∀ message state', state.step (Node.access anyScript) message = some state' →
        (state'.Completes ↔ state.EndsInTime message) := by
  obtain ⟨state, hRun, hNone, -⟩ := exists_fullBatch_downloaded EndsInTime fun _ _ hNot hEq => absurd hEq hNot
  exact ⟨state, hRun, hNone, completes_and_step_iff (Node.access anyScript) hRun⟩

/-- After the block of a full batch the peer has no more headers, and the download never ends. -/
theorem exists_end_missed : ∃ (verifyScript : VerifyScript) (state : Download Node),
    Reaches (step (Node.access verifyScript)) (fun _ _ => True) (start Node.initial) state ∧
      state.manager.isGetHeaders = true ∧ state.manager.hashIBDBlocks = ∅ ∧ state.manager.isFinish = false := by
  obtain ⟨state, hRun, hNone, hFinish, hFirst⟩ := exists_fullBatch_downloaded (fun _ _ => True) fun _ _ _ => trivial
  exact ⟨anyScript, _, hRun.next trivial (step_laterEmpty hFinish hFirst), rfl, hNone, hFinish⟩

end FullBatch

end Download

end BitcoinGpuMiner
