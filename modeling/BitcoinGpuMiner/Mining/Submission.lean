import BitcoinGpuMiner.Chain.PlainBlock
import BitcoinGpuMiner.Mining.Template
import BitcoinGpuMiner.Model.GpuMiner

/-! # What the miner hands in

As long as results arrive in order, every block that is handed in is solved and is left alone afterwards: a hit
must find its own block still current, and nobody may ask for a restart on top of that.
-/

namespace BitcoinGpuMiner

open Foundation

set_option autoImplicit false

/-- What the callback for a new block can return. -/
def Template (template : Block) : Prop :=
  ∃ (verifyScript : VerifyScript) (node : Node) (script : CScript) (time : UInt32) (memPool : TXMemPool),
    Node.History verifyScript node ∧ node.createNewBlock script time = .ok (memPool, template)

theorem Template.nBits {template : Block} (hTemplate : Template template) : template.nBits = proofOfWorkLimit := by
  obtain ⟨_, node, script, time, memPool, hHistory, hCreate⟩ := hTemplate
  obtain ⟨tip, -, -, rfl⟩ := Node.createNewBlock_eq_ok hHistory.sound.tree hCreate
  rfl

def MinerEvent.Served : MinerEvent → Prop
  | .loop template => Template template
  | .check | .reset | .stop => True

/-- A step of the two threads themselves. -/
def MinerEvent.internal : MinerEvent → Bool
  | .loop _ | .check => true
  | .reset | .stop => false

namespace GpuMiner

/-- Finitely many events from the start, each of them allowed where it happens. -/
def Run (threadCount : UInt32) (allowed : GpuMiner → MinerEvent → Prop) (miner : GpuMiner) : Prop :=
  Relation.ReflTransGen (fun miner miner' => ∃ event : MinerEvent,
    event.Served ∧ allowed miner event ∧ miner' = miner.step threadCount event) initial miner

/-- Nobody looks at the run state again before it is overwritten, or ever. -/
def unread (miner : GpuMiner) : Bool :=
  miner.point == .restart || miner.point == .returned || miner.point == .exited

/-- A hit is for the current block, before that block is handed in; a restart is only asked for when one is
pending anyway, or when the request goes unread. -/
def orderly (miner : GpuMiner) : MinerEvent → Bool
  | .check =>
    match miner.tasks with
    | [] => true
    | task :: _ =>
      task.hit.isNone || (task.block == miner.block && miner.point != .submit && miner.point != .fetch)
  | .reset => miner.runState == .restert || miner.unread
  | .loop _ | .stop => true

/-- Every block that was handed in was solved, and its nonce is still the one it was handed in with. -/
structure SolvedOnly (miner : GpuMiner) : Prop where
  solved : ∀ entry ∈ miner.handed, checkProofOfWork entry.2.getHash entry.2.nBits = true
  kept : ∀ entry ∈ miner.handed, (miner.blocks[entry.1]?).map (fun block => block.nNonce) = some entry.2.nNonce

def withNonce (block : Block) (nNonce : UInt32) : Block := { block with nNonce := nNonce }

def Solved (blocks : List Block) (id : Nat) : Prop :=
  ∃ block, blocks[id]? = some block ∧ checkProofOfWork block.getHash block.nBits = true

/-- The results of a task are the hashes of its block with the nonces of the batch. -/
def TaskOk (miner : GpuMiner) (task : CheckTask) : Prop :=
  ∀ id, task.block = some id → task.bnTarget = (setCompact proofOfWorkLimit).target ∧
    ∃ block, miner.blocks[id]? = some block ∧ block.nBits = proofOfWorkLimit ∧
      ∀ (i : Nat) (hash : Uint256), task.results[i]? = some hash →
        hash = (withNonce block (task.nonceOffset + UInt32.ofNat i)).getHash

def CurrentOk (miner : GpuMiner) : Prop :=
  ∀ id, miner.block = some id → miner.bnTarget = (setCompact proofOfWorkLimit).target ∧
    ∃ block, miner.blocks[id]? = some block ∧ block.nBits = proofOfWorkLimit ∧
      ∀ nNonce, BlockHeader.getHash { miner.header with nNonce := nNonce } = (withNonce block nNonce).getHash

/-- What holds between the two threads. -/
structure Inv (miner : GpuMiner) : Prop where
  /-- A restart is pending only when there is something to hand in. -/
  pending : (miner.runState = .restert ∧ miner.unread = false) ∨ miner.point = .restart ∨ miner.point = .submit →
    ∀ id, miner.block = some id → Solved miner.blocks id
  quiet : miner.point = .submit ∨ miner.point = .fetch → miner.runState ≠ .restert
  handed : ∀ entry ∈ miner.handed, miner.blocks[entry.1]? = some entry.2 ∧
    checkProofOfWork entry.2.getHash entry.2.nBits = true
  unhanded : miner.point ≠ .fetch → ∀ id, miner.block = some id → ∀ entry ∈ miner.handed, entry.1 ≠ id
  current : miner.CurrentOk
  tasks : ∀ task ∈ miner.tasks, miner.TaskOk task

theorem Inv.solvedOnly {miner : GpuMiner} (hInv : miner.Inv) : miner.SolvedOnly where
  solved entry hEntry := (hInv.handed entry hEntry).2
  kept entry hEntry := by rw [(hInv.handed entry hEntry).1, Option.map_some]

/-- The blocks of the first list are still there, up to their nonces. -/
def Keeps (blocks blocks' : List Block) : Prop :=
  ∀ (id : Nat) (block : Block), blocks[id]? = some block →
    ∃ block', blocks'[id]? = some block' ∧ block'.nBits = block.nBits ∧ ∀ n, withNonce block' n = withNonce block n

theorem keeps_append (blocks more : List Block) : Keeps blocks (blocks ++ more) := by
  intro id block hGet
  obtain ⟨hLt, -⟩ := List.getElem?_eq_some_iff.mp hGet
  exact ⟨block, by rw [List.getElem?_append_left hLt, hGet], rfl, fun _ => rfl⟩

theorem keeps_modify (blocks : List Block) (id : Nat) (nNonce : UInt32) :
    Keeps blocks (blocks.modify id fun block => { block with nNonce := nNonce }) := by
  intro other block hGet
  rw [List.getElem?_modify, hGet]
  split
  · exact ⟨withNonce block nNonce, rfl, rfl, fun _ => rfl⟩
  · exact ⟨block, rfl, rfl, fun _ => rfl⟩

section Step

variable {miner miner' : GpuMiner} {threadCount : UInt32}

theorem TaskOk.mono {task : CheckTask} (hTask : miner.TaskOk task) (hKeeps : Keeps miner.blocks miner'.blocks) :
    miner'.TaskOk task := by
  intro id hId
  obtain ⟨hTarget, block, hBlock, hBits, hResults⟩ := hTask id hId
  obtain ⟨block', hBlock', hBits', hNonce⟩ := hKeeps id block hBlock
  refine ⟨hTarget, block', hBlock', hBits'.trans hBits, ?_⟩
  intro i hash hHash
  rw [hNonce]
  exact hResults i hash hHash

theorem CurrentOk.mono (hCurrent : miner.CurrentOk) (hBlock : miner'.block = miner.block)
    (hTarget : miner'.bnTarget = miner.bnTarget) (hHeader : miner'.header = miner.header)
    (hKeeps : Keeps miner.blocks miner'.blocks) : miner'.CurrentOk := by
  intro id hId
  rw [hBlock] at hId
  obtain ⟨hLimit, block, hGet, hBits, hHash⟩ := hCurrent id hId
  obtain ⟨block', hGet', hBits', hNonce⟩ := hKeeps id block hGet
  refine ⟨hTarget.trans hLimit, block', hGet', hBits'.trans hBits, ?_⟩
  intro nNonce
  rw [hHeader, hNonce]
  exact hHash nNonce

theorem CurrentOk.taskOk (hCurrent : miner.CurrentOk) (count : Nat) : miner.TaskOk
    ⟨batchResults miner.header miner.nonceOffset count, miner.nonceOffset, miner.block, miner.bnTarget⟩ := by
  intro id hId
  obtain ⟨hLimit, block, hGet, hBits, hHash⟩ := hCurrent id hId
  refine ⟨hLimit, block, hGet, hBits, ?_⟩
  intro i hash hResult
  rw [batchResults, List.getElem?_map] at hResult
  obtain ⟨j, hRange, rfl⟩ := Option.map_eq_some_iff.mp hResult
  obtain ⟨hLt, rfl⟩ := List.getElem?_eq_some_iff.mp hRange
  rw [List.getElem_range]
  exact hHash _

theorem TaskOk.hit_solved {task : CheckTask} (hTask : miner.TaskOk task) {id i : Nat} (hId : task.block = some id)
    (hHit : task.hit = some i) : ∃ block, miner.blocks[id]? = some block ∧
      checkProofOfWork (withNonce block (task.nonceOffset + UInt32.ofNat i)).getHash block.nBits = true := by
  obtain ⟨hTarget, block, hBlock, hBits, hResults⟩ := hTask id hId
  obtain ⟨hLt, hMeets, -⟩ := List.findIdx?_eq_some_iff_getElem.mp hHit
  refine ⟨block, hBlock, ?_⟩
  rw [hBits, checkProofOfWork_limit_iff, ← hResults i _ (List.getElem?_eq_getElem hLt), ← hTarget]
  exact decide_eq_true_iff.mp hMeets

theorem Inv.loop (hInv : miner.Inv) {template : Block} (hBits : template.nBits = proofOfWorkLimit) :
    (miner.loop threadCount template).Inv := by
  cases hPoint : miner.point with
  | top =>
    have hUnhanded := hInv.unhanded (by rw [hPoint]; decide)
    rw [GpuMiner.loop, hPoint]
    cases hState : miner.runState with
    | restert =>
      have hRead : miner.unread = false := by rw [unread, hPoint]; rfl
      exact ⟨fun _ => hInv.pending (.inl ⟨hState, hRead⟩), by simp, hInv.handed, fun _ => hUnhanded, hInv.current, hInv.tasks⟩
    | stop => exact ⟨by simp [unread], by simp, hInv.handed, fun _ => hUnhanded, hInv.current, hInv.tasks⟩
    | runing => exact ⟨by simp, by simp, hInv.handed, fun _ => hUnhanded, hInv.current, hInv.tasks⟩
  | restart =>
    have hUnhanded := hInv.unhanded (by rw [hPoint]; decide)
    rw [GpuMiner.loop, hPoint]
    exact ⟨fun _ => hInv.pending (.inr (.inl hPoint)), by simp, hInv.handed, fun _ => hUnhanded, hInv.current, hInv.tasks⟩
  | submit =>
    have hQuiet := hInv.quiet (.inl hPoint)
    rw [GpuMiner.loop, hPoint]
    refine ⟨by simp [hQuiet], fun _ => hQuiet, ?_, by simp, hInv.current, hInv.tasks⟩
    intro entry hEntry
    rcases List.mem_append.mp hEntry with hOld | hNew
    · exact hInv.handed entry hOld
    · obtain ⟨id, hId, rfl⟩ := List.mem_map.mp hNew
      obtain ⟨block, hGet, hWork⟩ := hInv.pending (.inr (.inr hPoint)) id (Option.mem_toList.mp hId)
      have hBlock : miner.blocks.getD id Block.null = block := by rw [List.getD_eq_getElem?_getD, hGet, Option.getD_some]
      dsimp only
      rw [hBlock]
      exact ⟨hGet, hWork⟩
  | fetch =>
    have hQuiet := hInv.quiet (.inr hPoint)
    have hKeeps := keeps_append miner.blocks [template]
    rw [GpuMiner.loop, hPoint]
    refine ⟨by simp [hQuiet], by simp, ?_, ?_, ?_, fun task hTask => (hInv.tasks task hTask).mono hKeeps⟩
    · intro entry hEntry
      obtain ⟨hGet, hWork⟩ := hInv.handed entry hEntry
      obtain ⟨hLt, -⟩ := List.getElem?_eq_some_iff.mp hGet
      exact ⟨by rw [List.getElem?_append_left hLt, hGet], hWork⟩
    · intro _ id hId entry hEntry
      obtain ⟨hLt, -⟩ := List.getElem?_eq_some_iff.mp (hInv.handed entry hEntry).1
      cases hId
      exact Nat.ne_of_lt hLt
    · intro id hId
      cases hId
      refine ⟨by rw [hBits], template, List.getElem?_concat_length, hBits, fun _ => rfl⟩
  | batch =>
    have hUnhanded := hInv.unhanded (by rw [hPoint]; decide)
    have hTasks : ∀ task ∈ miner.tasks ++ [⟨batchResults miner.header miner.nonceOffset (threadCount * 32 / 32).toNat,
        miner.nonceOffset, miner.block, miner.bnTarget⟩], miner.TaskOk task := by
      intro task hTask
      rcases List.mem_append.mp hTask with hOld | hNew
      · exact hInv.tasks task hOld
      · rw [List.mem_singleton.mp hNew]
        exact hInv.current.taskOk _
    rw [GpuMiner.loop, hPoint]
    dsimp only
    split
    · exact ⟨by simp [unread], by simp, hInv.handed, fun _ => hUnhanded, hInv.current, hTasks⟩
    · refine ⟨?_, by simp, hInv.handed, fun _ => hUnhanded, hInv.current, hTasks⟩
      rintro (⟨hState, -⟩ | hOther)
      · have hRead : miner.unread = false := by rw [unread, hPoint]; rfl
        exact hInv.pending (.inl ⟨hState, hRead⟩)
      · simp at hOther
  | returned =>
    rw [GpuMiner.loop, hPoint]
    exact hInv
  | exited =>
    rw [GpuMiner.loop, hPoint]
    exact hInv

theorem Inv.dropTask (hInv : miner.Inv) {task : CheckTask} {rest : List CheckTask} (hTasks : miner.tasks = task :: rest) :
    Inv { miner with tasks := rest } := by
  refine ⟨hInv.pending, hInv.quiet, hInv.handed, hInv.unhanded, hInv.current, ?_⟩
  intro other hOther
  exact hInv.tasks other (by rw [hTasks]; exact List.mem_cons_of_mem _ hOther)

theorem Inv.hit (hInv : miner.Inv) {task : CheckTask} (hTask : miner.TaskOk task) {id i : Nat}
    (hId : task.block = some id) (hHit : task.hit = some i) (hCurrent : miner.block = some id)
    (hPoint : miner.point ≠ .submit ∧ miner.point ≠ .fetch) :
    Inv { miner with
      blocks := miner.blocks.modify id fun block => { block with nNonce := task.nonceOffset + UInt32.ofNat i }
      runState := .restert } := by
  have hKeeps := keeps_modify miner.blocks id (task.nonceOffset + UInt32.ofNat i)
  obtain ⟨block, hBlock, hWork⟩ := hTask.hit_solved hId hHit
  refine ⟨?_, ?_, ?_, hInv.unhanded, hInv.current.mono rfl rfl rfl hKeeps,
    fun other hOther => (hInv.tasks other hOther).mono hKeeps⟩
  · intro _ other hOther
    cases hCurrent.symm.trans hOther
    refine ⟨withNonce block (task.nonceOffset + UInt32.ofNat i), ?_, hWork⟩
    rw [List.getElem?_modify, hBlock]
    simp [withNonce]
  · rintro (hSubmit | hFetch)
    · exact absurd hSubmit hPoint.1
    · exact absurd hFetch hPoint.2
  · intro entry hEntry
    obtain ⟨hGet, hSolved⟩ := hInv.handed entry hEntry
    have hNe := hInv.unhanded hPoint.2 id hCurrent entry hEntry
    refine ⟨?_, hSolved⟩
    rw [List.getElem?_modify, hGet]
    simp [Ne.symm hNe]

theorem Inv.check (hInv : miner.Inv) (hOrderly : miner.orderly .check = true) : miner.check.Inv := by
  rw [GpuMiner.check]
  split
  · exact hInv
  case h_2 task rest hTasks =>
  rw [orderly, hTasks] at hOrderly
  split
  case h_1 i id hHit hId =>
    simp only [hHit, hId, Option.isNone_some, Bool.false_or, Bool.and_eq_true, beq_iff_eq, bne_iff_ne] at hOrderly
    obtain ⟨⟨hCurrent, hSubmit⟩, hFetch⟩ := hOrderly
    have hTask : miner.TaskOk task := hInv.tasks task (by rw [hTasks]; exact List.mem_cons_self)
    exact (hInv.dropTask hTasks).hit hTask hId hHit hCurrent.symm ⟨hSubmit, hFetch⟩
  case h_2 => exact hInv.dropTask hTasks

theorem Inv.reset (hInv : miner.Inv) (hOrderly : miner.orderly .reset = true) : miner.reset.Inv := by
  have hAsked : miner.runState = .restert ∨ miner.unread = true := by
    simpa only [orderly, Bool.or_eq_true, beq_iff_eq] using hOrderly
  refine ⟨?_, ?_, hInv.handed, hInv.unhanded, hInv.current, hInv.tasks⟩
  · rintro (⟨-, hRead⟩ | hPoint)
    · exact hInv.pending (.inl ⟨hAsked.resolve_right (Bool.eq_false_iff.mp hRead), hRead⟩)
    · exact hInv.pending (.inr hPoint)
  · intro hPoint
    have hRead : miner.unread = false := by rcases hPoint with hPoint | hPoint <;> rw [unread, show miner.point = _ from hPoint] <;> rfl
    exact absurd (hAsked.resolve_right (Bool.eq_false_iff.mp hRead)) (hInv.quiet hPoint)

theorem Inv.stop (hInv : miner.Inv) : miner.stop.Inv := by
  refine ⟨?_, ?_, hInv.handed, hInv.unhanded, hInv.current, hInv.tasks⟩
  · rintro (⟨hState, -⟩ | hPoint)
    · cases hState
    · exact hInv.pending (.inr hPoint)
  · intro _ hState
    cases hState

theorem Inv.step (hInv : miner.Inv) {event : MinerEvent} (hServed : event.Served)
    (hOrderly : miner.orderly event = true) : (miner.step threadCount event).Inv := by
  cases event with
  | loop template => exact hInv.loop (Template.nBits hServed)
  | check => exact hInv.check hOrderly
  | reset => exact hInv.reset hOrderly
  | stop => exact hInv.stop

theorem initial_inv : initial.Inv where
  pending _ _ hId := nomatch hId
  quiet hPoint := by rcases hPoint with hPoint | hPoint <;> cases hPoint
  handed _ hEntry := nomatch hEntry
  unhanded _ _ hId := nomatch hId
  current _ hId := nomatch hId
  tasks _ hTask := nomatch hTask

end Step

def allowedAll (threadCount : UInt32) (allowed : GpuMiner → MinerEvent → Bool) : GpuMiner → List MinerEvent → Bool
  | _, [] => true
  | miner, event :: events =>
    allowed miner event && allowedAll threadCount allowed (miner.step threadCount event) events

theorem Run.foldl {threadCount : UInt32} {allowed : GpuMiner → MinerEvent → Bool} {miner : GpuMiner}
    (hRun : Run threadCount (fun miner event => allowed miner event = true) miner) (events : List MinerEvent)
    (hServed : ∀ event ∈ events, event.Served) (hAllowed : allowedAll threadCount allowed miner events = true) :
    Run threadCount (fun miner event => allowed miner event = true) (events.foldl (step threadCount) miner) := by
  induction events generalizing miner with
  | nil => exact hRun
  | cons event events ih =>
    obtain ⟨hFirst, hRest⟩ := Bool.and_eq_true_iff.mp hAllowed
    have hServed' := List.forall_mem_cons.mp hServed
    exact ih (hRun.tail ⟨event, hServed'.1, hFirst, rfl⟩) hServed'.2 hRest

/-- In every orderly run only solved blocks are handed in, and they stay as they were. -/
theorem solvedOnly_of_orderly {threadCount : UInt32} {miner : GpuMiner}
    (hRun : Run threadCount (fun miner event => miner.orderly event = true) miner) : miner.SolvedOnly := by
  have hInv : miner.Inv := by
    induction hRun with
    | refl => exact initial_inv
    | tail _ hStep ih =>
      obtain ⟨event, hServed, hOrderly, rfl⟩ := hStep
      exact ih.step hServed hOrderly
  exact hInv.solvedOnly

/-! A late hit, with one work item per batch. Two nonces solve the first template. Both batches are posted before
the first hit is seen, and the second hit arrives when the next template is current. -/

namespace LateHit

def first : Block :=
  { templateBlock genesisIndex Node.minerAddress 1296688603 ⟨TXMemPool.empty, 0, 80, []⟩ with nBits := proofOfWorkLimit }

def second : Block :=
  { templateBlock (BlockIndex.make 1 first.getHash params.hashGenesisBlock) Node.minerAddress 1296688604
      ⟨TXMemPool.empty, 0, 80, []⟩ with nBits := proofOfWorkLimit }

theorem template_first : Template first := by
  have hCreate := Node.createNewBlock_ok Node.initial_tree Node.initial_activeTip Node.minerAddress 1296688603
  rw [Node.initial_memPool] at hCreate
  exact ⟨anyScript, Node.initial, Node.minerAddress, 1296688603, _, .refl, hCreate⟩

def afterFirst : Node := Node.acceptAll anyScript Node.initial [first]

theorem afterFirst_evaluated : Node.returnsAll anyScript Node.initial [first] = true ∧
    afterFirst.tips.getActiveTip = some (BlockIndex.make 1 first.getHash params.hashGenesisBlock) := by
  decide +kernel

theorem afterFirst_reachable : Node.Reachable anyScript afterFirst :=
  Node.Reachable.acceptAll _ .refl afterFirst_evaluated.1

theorem template_second : Template second := by
  have hPool : afterFirst.memPool = TXMemPool.empty := Node.Run.poolEmpty afterFirst_reachable
  have hCreate := Node.createNewBlock_ok (Node.Run.tree afterFirst_reachable) afterFirst_evaluated.2 Node.minerAddress
    1296688604
  rw [hPool] at hCreate
  exact ⟨anyScript, afterFirst, Node.minerAddress, 1296688604, _, afterFirst_reachable.history, hCreate⟩

/-- Up to the moment when the first template is handed in. -/
def untilHanded : List MinerEvent :=
  [.loop first, .loop first, .loop first, .loop first, .loop first, .loop first, .loop first, .check, .loop first,
    .loop first, .loop first]

def afterwards : List MinerEvent :=
  [.loop second, .check, .loop second, .loop second, .loop second, .loop second]

theorem served : ∀ event ∈ untilHanded ++ afterwards, event.Served := by
  simp only [untilHanded, afterwards, List.cons_append, List.nil_append, List.forall_mem_cons, MinerEvent.Served,
    template_first, template_second, List.not_mem_nil, false_implies, implies_true, and_self]

def final : GpuMiner := (untilHanded ++ afterwards).foldl (step 1) initial

theorem final_evaluated : (allowedAll 1 orderly initial untilHanded = true ∧
      allowedAll 1 (fun _ event => event.internal) initial (untilHanded ++ afterwards) = true) ∧
    (∃ entry ∈ final.handed, checkProofOfWork entry.2.getHash entry.2.nBits = false) ∧
    ∃ entry ∈ final.handed, (final.blocks[entry.1]?).map (fun block => block.nNonce) ≠ some entry.2.nNonce := by
  decide +kernel

end LateHit

theorem solvedOnly_of_orderly_untilHanded :
    SolvedOnly (LateHit.untilHanded.foldl (step 1) initial) := by
  have hServed : ∀ event ∈ LateHit.untilHanded, event.Served :=
    fun event hEvent => LateHit.served event (List.mem_append_left _ hEvent)
  exact solvedOnly_of_orderly (Run.foldl .refl _ hServed LateHit.final_evaluated.1.1)

/-- Without any call from outside, a block that is not solved is handed in, and one that was handed in is changed. -/
theorem exists_unsolved_handed : ∃ (threadCount : UInt32) (miner : GpuMiner),
    Run threadCount (fun _ event => event.internal = true) miner ∧
      (∃ entry ∈ miner.handed, checkProofOfWork entry.2.getHash entry.2.nBits = false) ∧
      ∃ entry ∈ miner.handed, (miner.blocks[entry.1]?).map (fun block => block.nNonce) ≠ some entry.2.nNonce := by
  have hRun := Run.foldl .refl _ LateHit.served LateHit.final_evaluated.1.2
  exact ⟨1, LateHit.final, hRun, LateHit.final_evaluated.2⟩

end GpuMiner

end BitcoinGpuMiner
