import BitcoinGpuMiner.Foundation.Transitions
import BitcoinGpuMiner.Model.Sender

/-! # The send queue

The queue stands for the writes: while the node is connected there is a write in flight just if the queue is
not empty, and it is for the front. So messages are sent one after the other in the order they were posted.
-/

namespace BitcoinGpuMiner

open Foundation

set_option autoImplicit false

namespace Sender

variable {Message : Type}

/-- Where the writes stand. -/
inductive Phase (sender : Sender Message) : Prop where
  | idle (hFlight : sender.inFlight = []) (hQueue : sender.writeNetMessages = [])
  | busy (front : Message) (rest : List Message) (hFlight : sender.inFlight = [front])
      (hQueue : sender.writeNetMessages = front :: rest)
  | stopped (hFlight : sender.inFlight = []) (hDisconnect : sender.isDisconnect = true)

/-- Every posted message has been sent, is queued or waits for its handler, in this order. -/
def Conserved (sender : Sender Message) : Prop :=
  sender.sent ++ sender.writeNetMessages ++ sender.handlers = sender.posted

/-- What the queue guarantees in every state. -/
structure Orderly (sender : Sender Message) : Prop where
  single : sender.inFlight.length ≤ 1
  front : ∀ message ∈ sender.inFlight, sender.writeNetMessages.head? = some message
  busy : sender.isDisconnect = false → (sender.inFlight ≠ [] ↔ sender.writeNetMessages ≠ [])
  inOrder : sender.sent <+: sender.posted
  conserved : sender.Conserved

theorem orderly_of_phase {sender : Sender Message} (hPhase : sender.Phase) (hConserved : sender.Conserved) :
    sender.Orderly := by
  have hOrder : sender.sent <+: sender.posted := by
    rw [← hConserved, List.append_assoc]
    exact List.prefix_append _ _
  cases hPhase with
  | idle hFlight hQueue => exact ⟨by simp [hFlight], by simp [hFlight], by simp [hFlight, hQueue], hOrder, hConserved⟩
  | busy front rest hFlight hQueue =>
    exact ⟨by simp [hFlight], by simp [hFlight, hQueue], by simp [hFlight, hQueue], hOrder, hConserved⟩
  | stopped hFlight hDisconnect =>
    exact ⟨by simp [hFlight], by simp [hFlight], by simp [hDisconnect], hOrder, hConserved⟩

section Handlers

variable {sender : Sender Message}

theorem disconnect_eq : sender.disconnect = { sender with isDisconnect := true } := by
  rw [disconnect]
  split
  case isTrue hDisconnect => cases sender; simp_all
  case isFalse => rfl

/-- `DoWrite` is called without a write in flight on a queue with a front. -/
theorem doWrite_cases {front : Message} {rest : List Message} (hFlight : sender.inFlight = [])
    (hQueue : sender.writeNetMessages = front :: rest) :
    ∃ sender', sender.doWrite = some sender' ∧ sender'.Phase ∧ (sender.Conserved → sender'.Conserved) := by
  cases hDisconnect : sender.isDisconnect with
  | true => exact ⟨sender, by simp [doWrite, hDisconnect], .stopped hFlight hDisconnect, id⟩
  | false =>
    refine ⟨{ sender with inFlight := sender.inFlight ++ [front], started := sender.started ++ [front] }, ?_,
      .busy front rest (by simp [hFlight]) hQueue, id⟩
    simp [doWrite, hDisconnect, hQueue]

/-- There is a handler to run for the event. -/
def Enabled (sender : Sender Message) : SenderEvent Message → Prop
  | .pushMessage _ | .disconnect => True
  | .pushed => sender.handlers ≠ []
  | .writeDone write | .writeFailed write => write < sender.inFlight.length

theorem enabled_of_step {sender' : Sender Message} {event : SenderEvent Message}
    (hStep : sender.step event = some sender') : sender.Enabled event := by
  cases event with
  | pushMessage | disconnect => exact trivial
  | pushed =>
    intro hNone
    simp [step, pushed, hNone] at hStep
  | writeDone write | writeFailed write =>
    refine Nat.lt_of_not_le fun hLe => ?_
    have hNone : sender.inFlight[write]? = none := List.getElem?_eq_none hLe
    simp [step, writeHandler, hNone] at hStep

/-- The state in which the handler for `bytes` calls `DoWrite` or returns. -/
def enqueued (sender : Sender Message) (bytes : Message) (handlers : List Message) : Sender Message :=
  { sender with handlers := handlers, writeNetMessages := sender.writeNetMessages ++ [bytes] }

theorem pushed_eq {bytes : Message} {handlers : List Message} (hHandlers : sender.handlers = bytes :: handlers) :
    sender.pushed = if sender.writeNetMessages.isEmpty then (sender.enqueued bytes handlers).doWrite
      else some (sender.enqueued bytes handlers) := by
  rw [pushed, hHandlers]
  rfl

theorem pushed_ok (hPhase : sender.Phase) (hConserved : sender.Conserved) (hSome : sender.handlers ≠ []) :
    ∃ sender', sender.pushed = some sender' ∧ sender'.Phase ∧ sender'.Conserved := by
  obtain ⟨bytes, handlers, hHandlers⟩ := List.exists_cons_of_ne_nil hSome
  have hMoved : (sender.enqueued bytes handlers).Conserved := by
    rw [Conserved, hHandlers] at hConserved
    simpa [Conserved, enqueued] using hConserved
  rw [pushed_eq hHandlers]
  -- with an empty queue nothing is in flight; otherwise the front stays the same
  cases hQueue : sender.writeNetMessages with
  | nil =>
    have hFlight : (sender.enqueued bytes handlers).inFlight = [] := by
      cases hPhase with
      | idle hFlight | stopped hFlight => exact hFlight
      | busy front rest hFlight hCons => cases hQueue.symm.trans hCons
    have hFront : (sender.enqueued bytes handlers).writeNetMessages = [bytes] := by simp [enqueued, hQueue]
    obtain ⟨sender', hWrite, hPhase', hKeeps⟩ := doWrite_cases hFlight hFront
    exact ⟨sender', hWrite, hPhase', hKeeps hMoved⟩
  | cons front rest =>
    refine ⟨sender.enqueued bytes handlers, rfl, ?_, hMoved⟩
    cases hPhase with
    | idle hFlight hNil => cases hQueue.symm.trans hNil
    | busy first others hFlight hCons => exact .busy first (others ++ [bytes]) hFlight (by simp [enqueued, hCons])
    | stopped hFlight hDisconnect => exact .stopped hFlight hDisconnect

/-- The state after a successful write of the front, before the next one is started. -/
def popped (sender : Sender Message) (front : Message) (rest : List Message) : Sender Message :=
  { sender with inFlight := [], writeNetMessages := rest, sent := sender.sent ++ [front] }

theorem writeHandler_ok (hPhase : sender.Phase) (hConserved : sender.Conserved) {write : Nat}
    (hWrite : write < sender.inFlight.length) (ec : Bool) :
    ∃ sender', sender.writeHandler write ec = some sender' ∧ sender'.Phase ∧ sender'.Conserved := by
  cases hPhase with
  | idle hFlight | stopped hFlight => simp [hFlight] at hWrite
  | busy front rest hFlight hQueue =>
    obtain rfl : write = 0 := by
      rw [hFlight, List.length_singleton] at hWrite
      omega
    cases ec with
    | true =>
      refine ⟨disconnect { sender with inFlight := [] }, by simp [writeHandler, hFlight], ?_, ?_⟩
      · rw [disconnect_eq]
        exact .stopped rfl rfl
      · rw [disconnect_eq]
        exact hConserved
    | false =>
      have hPopped : (sender.popped front rest).Conserved := by
        rw [Conserved, hQueue] at hConserved
        simpa [Conserved, popped] using hConserved
      cases rest with
      | nil => exact ⟨sender.popped front [], by simp [writeHandler, hFlight, hQueue, popped], .idle rfl rfl, hPopped⟩
      | cons next rest =>
        obtain ⟨sender', hNext, hPhase', hKeeps⟩ :=
          doWrite_cases (rfl : (sender.popped front (next :: rest)).inFlight = []) rfl
        refine ⟨sender', ?_, hPhase', hKeeps hPopped⟩
        simpa [writeHandler, hFlight, hQueue, popped] using hNext

/-- A handler that can run does so without touching the front of an empty queue, and keeps the order. -/
theorem step_ok (hPhase : sender.Phase) (hConserved : sender.Conserved) {event : SenderEvent Message}
    (hEnabled : sender.Enabled event) : ∃ sender', sender.step event = some sender' ∧ sender'.Phase ∧ sender'.Conserved := by
  cases event with
  | pushMessage message =>
    refine ⟨_, rfl, ?_, ?_⟩
    · cases hPhase with
      | idle hFlight hQueue => exact .idle hFlight hQueue
      | busy front rest hFlight hQueue => exact .busy front rest hFlight hQueue
      | stopped hFlight hDisconnect => exact .stopped hFlight hDisconnect
    · rw [Conserved] at hConserved
      simp [Conserved, pushMessage, ← hConserved]
  | pushed => exact pushed_ok hPhase hConserved hEnabled
  | writeDone write => exact writeHandler_ok hPhase hConserved hEnabled false
  | writeFailed write => exact writeHandler_ok hPhase hConserved hEnabled true
  | disconnect =>
    refine ⟨_, rfl, ?_, ?_⟩
    · rw [disconnect_eq]
      cases hPhase with
      | idle hFlight hQueue => exact .idle hFlight hQueue
      | busy front rest hFlight hQueue => exact .busy front rest hFlight hQueue
      | stopped hFlight => exact .stopped hFlight rfl
    · rw [disconnect_eq]
      exact hConserved

theorem doWrite_of_disconnect (hDisconnect : sender.isDisconnect = true) : sender.doWrite = some sender := by
  rw [doWrite, if_pos hDisconnect]

theorem started_of_writeFailed {sender' : Sender Message} {write : Nat}
    (hStep : sender.step (.writeFailed write) = some sender') :
    sender'.isDisconnect = true ∧ sender'.started = sender.started := by
  rw [step, writeHandler] at hStep
  split at hStep
  · cases hStep
  · cases hStep
    rw [disconnect_eq]
    exact ⟨rfl, rfl⟩

theorem started_of_disconnect {sender' : Sender Message} {event : SenderEvent Message}
    (hDisconnect : sender.isDisconnect = true) (hStep : sender.step event = some sender') :
    sender'.isDisconnect = true ∧ sender'.started = sender.started := by
  cases event with
  | pushMessage message =>
    cases hStep
    exact ⟨hDisconnect, rfl⟩
  | pushed =>
    obtain ⟨bytes, handlers, hHandlers⟩ := List.exists_cons_of_ne_nil (enabled_of_step hStep)
    have hStill : (sender.enqueued bytes handlers).isDisconnect = true := hDisconnect
    rw [step, pushed_eq hHandlers, doWrite_of_disconnect hStill, ite_self] at hStep
    cases hStep
    exact ⟨hDisconnect, rfl⟩
  | disconnect =>
    cases hStep
    rw [disconnect_eq]
    exact ⟨rfl, rfl⟩
  | writeFailed write => exact started_of_writeFailed hStep
  | writeDone write =>
    rw [step, writeHandler] at hStep
    split at hStep
    · cases hStep
    simp only [Bool.false_eq_true, if_false] at hStep
    split at hStep
    · cases hStep
    · rw [doWrite_of_disconnect (by exact hDisconnect), ite_self] at hStep
      cases hStep
      exact ⟨hDisconnect, rfl⟩

end Handlers

/-- The queue keeps the order in every run, no handler touches the front of an empty queue, and no write is
started once a write has failed or the node has disconnected. -/
theorem orderly_run {sender : Sender Message} (hRun : Reaches step (fun _ _ => True) empty sender) :
    sender.Orderly ∧ (∀ event, sender.Enabled event → ∃ sender', sender.step event = some sender') ∧
      ∀ event sender' later, (event = .disconnect ∨ ∃ write, event = .writeFailed write) →
        sender.step event = some sender' → Reaches step (fun _ _ => True) sender' later →
          later.started = sender.started := by
  have hInvariant : sender.Phase ∧ sender.Conserved := by
    refine hRun.invariant (motive := fun sender => sender.Phase ∧ sender.Conserved) ⟨.idle rfl rfl, rfl⟩ ?_
    rintro sender event sender' ⟨hPhase, hConserved⟩ - hStep
    obtain ⟨next, hNext, hPhase', hConserved'⟩ := step_ok hPhase hConserved (enabled_of_step hStep)
    cases hStep.symm.trans hNext
    exact ⟨hPhase', hConserved'⟩
  refine ⟨orderly_of_phase hInvariant.1 hInvariant.2, ?_, ?_⟩
  · intro event hEnabled
    obtain ⟨sender', hStep, -⟩ := step_ok hInvariant.1 hInvariant.2 hEnabled
    exact ⟨sender', hStep⟩
  · intro event sender' later hEvent hStep hLater
    have hStopped : sender'.isDisconnect = true ∧ sender'.started = sender.started := by
      rcases hEvent with rfl | ⟨write, rfl⟩
      · cases hStep
        rw [disconnect_eq]
        exact ⟨rfl, rfl⟩
      · exact started_of_writeFailed hStep
    refine (hLater.invariant (motive := fun later => later.isDisconnect = true ∧ later.started = sender.started)
      hStopped ?_).2
    rintro later event next ⟨hDisconnect, hStarted⟩ - hNext
    obtain ⟨hDisconnect', hStarted'⟩ := started_of_disconnect hDisconnect hNext
    exact ⟨hDisconnect', hStarted'.trans hStarted⟩

/-- Three messages are posted while the first is being written. -/
def threePosted : List (SenderEvent Bytes) :=
  [.pushMessage [1], .pushed, .pushMessage [2], .pushMessage [3], .pushed, .writeDone 0, .pushed]

theorem orderly_run_threePosted : ∃ sender : Sender Bytes, Reaches step (fun _ _ => True) empty sender ∧
    sender.sent = [[1]] ∧ sender.inFlight = [[2]] ∧ sender.writeNetMessages = [[2], [3]] ∧ sender.Orderly ∧
      (∀ event, sender.Enabled event → ∃ sender', sender.step event = some sender') ∧
      ∀ event sender' later, (event = .disconnect ∨ ∃ write, event = .writeFailed write) →
        sender.step event = some sender' → Reaches step (fun _ _ => True) sender' later →
          later.started = sender.started := by
  have hReplay : threePosted.foldlM step empty = some _ := rfl
  have hRun := Reaches.foldlM threePosted .refl hReplay
  exact ⟨_, hRun, rfl, rfl, rfl, orderly_run hRun⟩

end Sender

end BitcoinGpuMiner
