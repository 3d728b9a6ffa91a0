import BitcoinGpuMiner.Foundation.Transitions
import BitcoinGpuMiner.Mining.Submission

/-! # After `Stop`

`_runState` is one cell, and whoever writes it does not look at it first: the loop when it begins a restart, the
checker when it finds a hit, and `Reset`. A call of `Stop` lasts as long as none of them comes after it.
-/

namespace BitcoinGpuMiner

open Foundation

set_option autoImplicit false

namespace GpuMiner

/-- What `Stop` is for, seen from a later state of the same run. -/
structure Stopped (before miner : GpuMiner) : Prop where
  state : miner.runState = .stop
  templates : miner.blocks.length = before.blocks.length
  handed : miner.handed = before.handed
  returns : ∀ (threadCount : UInt32) (template : Block), miner.point = .top →
    (miner.loop threadCount template).point = .returned

/-- The step overwrites the run state, hands a block in or fetches a template. -/
def disturbs (miner : GpuMiner) : MinerEvent → Bool
  | .loop _ =>
    match miner.point with
    -- the `switch` has read the state before it was `STOP`
    | .restart | .fetch => true
    | .submit => miner.block.isSome
    | .top | .batch | .returned | .exited => false
  | .check =>
    match miner.tasks with
    | [] => false
    | task :: _ => task.hit.isSome && task.block.isSome
  | .reset => true
  | .stop => false

theorem stopped_iff (before miner : GpuMiner) : Stopped before miner ↔
    miner.runState = .stop ∧ miner.blocks.length = before.blocks.length ∧ miner.handed = before.handed := by
  constructor
  · intro hStopped
    exact ⟨hStopped.state, hStopped.templates, hStopped.handed⟩
  · rintro ⟨hState, hTemplates, hHanded⟩
    refine ⟨hState, hTemplates, hHanded, ?_⟩
    intro threadCount template hPoint
    rw [loop, hPoint, hState]

section Step

variable {before miner : GpuMiner}

theorem Stopped.loop_iff (hStopped : Stopped before miner) (threadCount : UInt32) (template : Block) :
    Stopped before (miner.loop threadCount template) ↔ miner.disturbs (.loop template) = false := by
  obtain ⟨hState, hTemplates, hHanded⟩ := (stopped_iff before miner).mp hStopped
  rw [stopped_iff, loop, disturbs]
  cases hPoint : miner.point with
  | top => simp [hState, hTemplates, hHanded]
  | restart => simp
  | submit => cases hBlock : miner.block <;> simp [hState, hTemplates, hHanded]
  | fetch => simp [hTemplates]
  | batch =>
    dsimp only
    split <;> simp [hState, hTemplates, hHanded]
  | returned => simp [hState, hTemplates, hHanded]
  | exited => simp [hState, hTemplates, hHanded]

theorem Stopped.check_iff (hStopped : Stopped before miner) :
    Stopped before miner.check ↔ miner.disturbs .check = false := by
  obtain ⟨hState, hTemplates, hHanded⟩ := (stopped_iff before miner).mp hStopped
  rw [stopped_iff, check, disturbs]
  cases hTasks : miner.tasks with
  | nil => simp [hState, hTemplates, hHanded]
  | cons task rest =>
    dsimp only
    -- only a hit on a block writes the run state
    cases hHit : task.hit <;> cases hBlock : task.block <;> simp [hState, hTemplates, hHanded]

theorem Stopped.step_iff (hStopped : Stopped before miner) (threadCount : UInt32) (event : MinerEvent) :
    Stopped before (miner.step threadCount event) ↔ miner.disturbs event = false := by
  cases event with
  | loop template => exact hStopped.loop_iff threadCount template
  | check => exact hStopped.check_iff
  | reset => simp [step, reset, stopped_iff, disturbs]
  | stop => simp [step, stop, stopped_iff, disturbs, hStopped.templates, hStopped.handed]

end Step

/-- Whatever the miner was doing when `Stop` was called: the call is final in every run that nothing disturbs,
and the first step that disturbs it undoes it. -/
theorem stopped_and_step_iff {threadCount : UInt32} {before after : GpuMiner}
    (hRun : Reaches (fun miner event => some (miner.step threadCount event))
      (fun miner event => miner.disturbs event = false) before.stop after) :
    Stopped before after ∧
      ∀ event, Stopped before (after.step threadCount event) ↔ after.disturbs event = false := by
  have hStart : Stopped before before.stop := (stopped_iff before _).mpr ⟨rfl, rfl, rfl⟩
  have hAfter : Stopped before after := by
    refine hRun.invariant hStart ?_
    intro miner event miner' hStopped hQuiet hEq
    cases hEq
    exact (hStopped.step_iff threadCount event).mpr hQuiet
  exact ⟨hAfter, hAfter.step_iff threadCount⟩

/-! A hit that waits in the queue when `Stop` is called, with one work item per batch. -/

namespace StopWithHit

def untilStop : List MinerEvent := List.replicate 5 (.loop LateHit.first)

def afterStop : List MinerEvent := .check :: List.replicate 4 (.loop LateHit.first)

def before : GpuMiner := untilStop.foldl (step 1) initial

def after : GpuMiner := afterStop.foldl (step 1) before.stop

theorem evaluated : allowedAll 1 (fun _ event => event.internal) initial untilStop = true ∧
    (before.stop.disturbs (.loop LateHit.first) = false ∧ (before.stop.loop 1 LateHit.first).point = .returned) ∧
    after.runState = .runing ∧ after.blocks.length = before.blocks.length + 1 ∧
    after.handed.length = before.handed.length + 1 := by
  decide +kernel

theorem served : (∀ event ∈ untilStop, event.Served) ∧ ∀ event ∈ afterStop, event.Served ∧ event.internal = true := by
  simp [untilStop, afterStop, MinerEvent.Served, MinerEvent.internal, LateHit.template_first]

end StopWithHit

/-- Without the hit the loop would have returned. -/
theorem stopped_and_step_iff_returned :
    Stopped StopWithHit.before (StopWithHit.before.stop.loop 1 LateHit.first) ∧
      (StopWithHit.before.stop.loop 1 LateHit.first).point = .returned := by
  have hQuiet := StopWithHit.evaluated.2.1.1
  have hRun : Reaches (fun miner event => some (step 1 miner event)) (fun miner event => disturbs miner event = false)
    StopWithHit.before.stop (StopWithHit.before.stop.loop 1 LateHit.first) := Reaches.next .refl hQuiet rfl
  exact ⟨(stopped_and_step_iff hRun).1, StopWithHit.evaluated.2.1.2⟩

/-- With no call from outside but `Stop` itself, a template is fetched and a block handed in after it. -/
theorem exists_restart_after_stop : ∃ (threadCount : UInt32) (before : GpuMiner) (events : List MinerEvent),
    Run threadCount (fun _ event => event.internal = true) before ∧
      (∀ event ∈ events, event.Served ∧ event.internal = true) ∧
      (events.foldl (step threadCount) before.stop).runState = .runing ∧
      (events.foldl (step threadCount) before.stop).blocks.length = before.blocks.length + 1 ∧
      (events.foldl (step threadCount) before.stop).handed.length = before.handed.length + 1 := by
  have hRun := Run.foldl .refl _ StopWithHit.served.1 StopWithHit.evaluated.1
  exact ⟨1, StopWithHit.before, StopWithHit.afterStop, hRun, StopWithHit.served.2, StopWithHit.evaluated.2.2⟩

end GpuMiner

end BitcoinGpuMiner
