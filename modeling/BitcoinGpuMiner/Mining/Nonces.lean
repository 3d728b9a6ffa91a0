import Mathlib.Data.List.Nodup
import BitcoinGpuMiner.Mining.Submission

/-! # The nonces of one template

The offset of the next batch and the test for the end of the range are both computed in 32 bits, so the test never
fails and the offset wraps around. The batches on one template hash the nonces from zero on without a gap, and hash
none of them twice until the range is used up.
-/

namespace BitcoinGpuMiner

set_option autoImplicit false

/-- The nonces of one batch, one for each work item. -/
def batchNonces (threadCount nonceOffset : UInt32) : List UInt32 :=
  (List.range threadCount.toNat).map fun i => nonceOffset + UInt32.ofNat i

theorem batchResults_eq_map_batchNonces (header : BlockHeader) (threadCount nonceOffset : UInt32) :
    batchResults header nonceOffset threadCount.toNat =
      (batchNonces threadCount nonceOffset).map fun nonce => BlockHeader.getHash { header with nNonce := nonce } := by
  rw [batchNonces, List.map_map]
  rfl

namespace GpuMiner

section Events

def isBatch (miner : GpuMiner) : MinerEvent → Bool
  | .loop _ => miner.point == .batch
  | .check | .reset | .stop => false

/-- The event does not ask for another template. -/
def keepsTemplate (miner : GpuMiner) : MinerEvent → Bool
  | .loop _ => miner.point != .fetch
  | .check | .reset | .stop => true

variable (threadCount : UInt32)

/-- What the device hashes while the events happen, batch after batch. -/
def hashedNonces : GpuMiner → List MinerEvent → List UInt32
  | _, [] => []
  | miner, event :: events =>
    (if miner.isBatch event then batchNonces threadCount miner.nonceOffset else []) ++
      hashedNonces (miner.step threadCount event) events

def batches : GpuMiner → List MinerEvent → Nat
  | _, [] => 0
  | miner, event :: events =>
    (if miner.isBatch event then 1 else 0) + batches (miner.step threadCount event) events

/-- No nonce comes twice, and the batches cover the nonces from zero on. -/
structure Covers (miner : GpuMiner) (events : List MinerEvent) : Prop where
  nodup : (hashedNonces threadCount miner events).Nodup
  exact : ∀ value : Nat, (∃ nonce ∈ hashedNonces threadCount miner events, nonce.toNat = value) ↔
    value < batches threadCount miner events * threadCount.toNat

end Events

section Step

variable {threadCount : UInt32} {miner : GpuMiner} {event : MinerEvent}

theorem nonceOffset_check (miner : GpuMiner) : miner.check.nonceOffset = miner.nonceOffset := by
  rw [check]
  split
  · rfl
  · split <;> rfl

theorem point_check (miner : GpuMiner) : miner.check.point = miner.point := by
  rw [check]
  split
  · rfl
  · split <;> rfl

/-- The test for the end of the range compares a 32-bit sum with the largest 32-bit number. -/
theorem loop_of_batch (template : Block) (hPoint : miner.point = .batch) :
    (miner.loop threadCount template).nonceOffset = miner.nonceOffset + threadCount ∧
      (miner.loop threadCount template).point = .top ∧
      (miner.loop threadCount template).runState = miner.runState := by
  have hNever : ¬ (miner.nonceOffset + threadCount).toNat > 0xffffffff :=
    Nat.not_lt.mpr (Nat.le_of_lt_succ (miner.nonceOffset + threadCount).toNat_lt)
  rw [loop, hPoint]
  dsimp only
  rw [if_neg hNever]
  exact ⟨rfl, rfl, rfl⟩

theorem loop_of_fetch (template : Block) (hPoint : miner.point = .fetch) :
    (miner.loop threadCount template).nonceOffset = 0 ∧ (miner.loop threadCount template).point = .batch ∧
      (miner.loop threadCount template).runState = miner.runState := by
  rw [loop, hPoint]
  exact ⟨rfl, rfl, rfl⟩

theorem nonceOffset_step (hKeeps : miner.keepsTemplate event = true) : (miner.step threadCount event).nonceOffset =
    if miner.isBatch event then miner.nonceOffset + threadCount else miner.nonceOffset := by
  cases event with
  | check => exact nonceOffset_check miner
  | reset | stop => rfl
  | loop template =>
    cases hPoint : miner.point with
    | batch =>
      rw [isBatch, hPoint]
      exact (loop_of_batch template hPoint).1
    | fetch =>
      rw [keepsTemplate, hPoint] at hKeeps
      cases hKeeps
    | top =>
      rw [isBatch, step, loop, hPoint]
      cases miner.runState <;> rfl
    | restart | submit | returned | exited =>
      rw [isBatch, step, loop, hPoint]
      rfl

theorem point_step_ne_exited (hPoint : miner.point ≠ .exited) : (miner.step threadCount event).point ≠ .exited := by
  cases event with
  | check =>
    rw [step, point_check]
    exact hPoint
  | reset | stop => exact hPoint
  | loop template =>
    cases hCase : miner.point with
    | exited => exact absurd hCase hPoint
    | batch =>
      rw [step, (loop_of_batch template hCase).2.1]
      decide
    | top =>
      rw [step, loop, hCase]
      cases miner.runState <;> simp
    | returned =>
      rw [step, loop, hCase]
      dsimp only
      rw [hCase]
      decide
    | restart | submit | fetch => simp [step, loop, hCase]

end Step

section Run

variable {threadCount : UInt32} {miner : GpuMiner} {events : List MinerEvent}

theorem point_foldl_ne_exited (hPoint : miner.point ≠ .exited) :
    (events.foldl (step threadCount) miner).point ≠ .exited := by
  induction events generalizing miner with
  | nil => exact hPoint
  | cons event events ih => exact ih (point_step_ne_exited hPoint)

theorem batchNonces_ofNat (threadCount : UInt32) (used : Nat) : batchNonces threadCount (UInt32.ofNat used) =
    (List.range' used threadCount.toNat).map UInt32.ofNat := by
  rw [batchNonces, List.range'_eq_map_range, List.map_map]
  exact List.map_congr_left fun i _ => (UInt32.ofNat_add used i).symm

/-- With `used` nonces behind it, a template goes on where it left off, up to the wrap. -/
theorem hashedNonces_eq {used : Nat} (hUsed : miner.nonceOffset = UInt32.ofNat used)
    (hKeeps : allowedAll threadCount keepsTemplate miner events = true) :
    hashedNonces threadCount miner events =
      (List.range' used (batches threadCount miner events * threadCount.toNat)).map UInt32.ofNat := by
  induction events generalizing miner used with
  | nil => simp [hashedNonces, batches]
  | cons event events ih =>
    rw [allowedAll, Bool.and_eq_true] at hKeeps
    have hNext : (miner.step threadCount event).nonceOffset = _ := nonceOffset_step hKeeps.1
    rw [hashedNonces, batches]
    cases hBatch : miner.isBatch event with
    | false =>
      rw [hBatch] at hNext
      have hRest := ih (hNext.trans hUsed) hKeeps.2
      simpa using hRest
    | true =>
      rw [hBatch, if_pos rfl, hUsed] at hNext
      -- the new offset is the number of nonces used, up to the wrap
      have hSum : UInt32.ofNat used + threadCount = UInt32.ofNat (used + threadCount.toNat) := by
        rw [UInt32.ofNat_add, UInt32.ofNat_toNat]
      rw [if_pos rfl, if_pos rfl, hUsed, batchNonces_ofNat, ih (hNext.trans hSum) hKeeps.2, ← List.map_append,
        List.range'_append_1, Nat.add_mul, Nat.one_mul]

end Run

section Wrap

variable {bound : Nat}

theorem toNat_ofNat_of_le (hBound : bound ≤ 2 ^ 32) {value : Nat} (hValue : value < bound) :
    (UInt32.ofNat value).toNat = value := UInt32.toNat_ofNat_of_lt' (Nat.lt_of_lt_of_le hValue hBound)

theorem nodup_map_ofNat_iff (bound : Nat) : ((List.range bound).map UInt32.ofNat).Nodup ↔ bound ≤ 2 ^ 32 := by
  rw [List.nodup_map_iff_inj_on List.nodup_range]
  simp only [List.mem_range]
  constructor
  · intro hInj
    by_contra hLarge
    have hZero := hInj 0 (by omega) (2 ^ 32) (by omega) (by decide)
    cases hZero
  · intro hBound i hI j hJ hEq
    rw [← toNat_ofNat_of_le hBound hI, hEq, toNat_ofNat_of_le hBound hJ]

theorem exists_map_ofNat_iff (hBound : bound ≤ 2 ^ 32) (value : Nat) :
    (∃ nonce ∈ (List.range bound).map UInt32.ofNat, nonce.toNat = value) ↔ value < bound := by
  simp only [List.mem_map, List.mem_range, exists_exists_and_eq_and]
  constructor
  · rintro ⟨i, hI, rfl⟩
    rwa [toNat_ofNat_of_le hBound hI]
  · intro hValue
    exact ⟨value, hValue, toNat_ofNat_of_le hBound hValue⟩

end Wrap

section Template

variable {threadCount : UInt32} {miner : GpuMiner} {events : List MinerEvent}

theorem hashedNonces_fetched (template : Block) (hFetch : miner.point = .fetch)
    (hKeeps : allowedAll threadCount keepsTemplate (miner.loop threadCount template) events = true) :
    hashedNonces threadCount (miner.loop threadCount template) events =
      (List.range (batches threadCount (miner.loop threadCount template) events * threadCount.toNat)).map
        UInt32.ofNat := by
  have hZero : (miner.loop threadCount template).nonceOffset = UInt32.ofNat 0 := (loop_of_fetch template hFetch).1
  rw [hashedNonces_eq hZero hKeeps, List.range_eq_range']

theorem point_fetched_ne_exited (template : Block) (hFetch : miner.point = .fetch) :
    (events.foldl (step threadCount) (miner.loop threadCount template)).point ≠ .exited := by
  apply point_foldl_ne_exited
  rw [(loop_of_fetch template hFetch).2.1]
  decide

/-- On one template the loop goes on without an error, and its batches are as they should be exactly as long as
they do not use up the range. -/
theorem covers_iff_le (template : Block) (hFetch : miner.point = .fetch)
    (hKeeps : allowedAll threadCount keepsTemplate (miner.loop threadCount template) events = true) :
    (events.foldl (step threadCount) (miner.loop threadCount template)).point ≠ .exited ∧
      (Covers threadCount (miner.loop threadCount template) events ↔
        batches threadCount (miner.loop threadCount template) events * threadCount.toNat ≤ 2 ^ 32) := by
  refine ⟨point_fetched_ne_exited template hFetch, ?_⟩
  have hHashed := hashedNonces_fetched template hFetch hKeeps
  constructor
  · intro hCovers
    have hNodup := hCovers.nodup
    rwa [hHashed, nodup_map_ofNat_iff] at hNodup
  · intro hRange
    refine ⟨?_, ?_⟩
    · rw [hHashed, nodup_map_ofNat_iff]
      exact hRange
    · rw [hHashed]
      exact exists_map_ofNat_iff hRange

end Template

section Rounds

def rounds (template : Block) : Nat → List MinerEvent
  | 0 => []
  | count + 1 => .loop template :: .loop template :: rounds template count

theorem batches_rounds (threadCount : UInt32) (template : Block) (count : Nat) {miner : GpuMiner}
    (hPoint : miner.point = .batch) (hState : miner.runState = .runing) :
    allowedAll threadCount keepsTemplate miner (rounds template count) = true ∧
      batches threadCount miner (rounds template count) = count := by
  induction count generalizing miner with
  | zero => exact ⟨rfl, rfl⟩
  | succ count ih =>
    generalize hNext : miner.loop threadCount template = next
    have hTop : next.point = .top := hNext ▸ (loop_of_batch template hPoint).2.1
    have hRuning : next.runState = .runing := hNext ▸ (loop_of_batch template hPoint).2.2.trans hState
    have hAgain : next.loop threadCount template = { next with point := .batch } := by rw [loop, hTop, hRuning]
    obtain ⟨hKeeps, hCount⟩ := @ih { next with point := .batch } rfl hRuning
    constructor
    · simp [rounds, allowedAll, keepsTemplate, step, hPoint, hNext, hTop, hAgain, hKeeps]
    · simp [rounds, batches, isBatch, step, hPoint, hNext, hTop, hAgain, hCount, Nat.add_comm]

/-- The loop is about to ask for its first template. -/
def ready : GpuMiner := { initial with runState := .runing, point := .fetch }

theorem run_ready (threadCount : UInt32) : Run threadCount (fun _ event => event.internal = true) ready := by
  have hServed : ∀ event ∈ List.replicate 3 (MinerEvent.loop LateHit.first), event.Served := by
    intro event hEvent
    rw [List.eq_of_mem_replicate hEvent]
    exact LateHit.template_first
  exact Run.foldl .refl (List.replicate 3 (.loop LateHit.first)) hServed rfl

theorem batches_ready (threadCount : UInt32) (template : Block) (count : Nat) :
    allowedAll threadCount keepsTemplate (ready.loop threadCount template) (rounds template count) = true ∧
      batches threadCount (ready.loop threadCount template) (rounds template count) = count :=
  batches_rounds threadCount template count rfl rfl

theorem covers_iff_le_ready : allowedAll 256 keepsTemplate (ready.loop 256 LateHit.first) (rounds LateHit.first 3) = true ∧
    ((rounds LateHit.first 3).foldl (step 256) (ready.loop 256 LateHit.first)).point ≠ .exited ∧
      (Covers 256 (ready.loop 256 LateHit.first) (rounds LateHit.first 3) ↔
        batches 256 (ready.loop 256 LateHit.first) (rounds LateHit.first 3) * (256 : UInt32).toNat ≤ 2 ^ 32) :=
  ⟨(batches_ready 256 _ 3).1, covers_iff_le LateHit.first rfl (batches_ready 256 _ 3).1⟩

/-- With 65536 work items, the batch after the first 65536 starts over at the nonce zero. -/
theorem exists_nonce_repeated : ∃ (threadCount : UInt32) (miner : GpuMiner) (template : Block) (events : List MinerEvent),
    Run threadCount (fun _ event => event.internal = true) miner ∧ miner.point = .fetch ∧
      allowedAll threadCount keepsTemplate (miner.loop threadCount template) events = true ∧
      batches threadCount (miner.loop threadCount template) events = 65537 ∧
      ¬ (hashedNonces threadCount (miner.loop threadCount template) events).Nodup ∧
      (events.foldl (step threadCount) (miner.loop threadCount template)).point ≠ .exited := by
  obtain ⟨hKeeps, hCount⟩ := batches_ready 65536 LateHit.first 65537
  refine ⟨65536, ready, LateHit.first, rounds LateHit.first 65537, run_ready _, rfl, hKeeps, hCount, ?_,
    point_fetched_ne_exited _ rfl⟩
  rw [hashedNonces_fetched _ rfl hKeeps, nodup_map_ofNat_iff, hCount]
  decide

end Rounds

end GpuMiner

end BitcoinGpuMiner
