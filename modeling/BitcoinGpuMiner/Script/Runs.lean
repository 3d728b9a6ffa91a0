import BitcoinGpuMiner.Script.Step
import Mathlib.Data.List.Infix
import Mathlib.Logic.Relation

/-! # Whole runs of `EvalScript`

A run is a sequence of completed rounds. What a round keeps therefore holds in every state that a script can reach,
and a script that fails stops at an operation it cannot read or in a round that fails.
-/

namespace BitcoinGpuMiner

set_option autoImplicit false

open Exec CScript Foundation ScriptValidation

namespace Env

variable (env : Env)

/-- One completed round, from a position and a machine to the next ones. -/
def Round (c c' : CScript × Machine) : Prop :=
  ∃ opcode data, getOp c.1 = .ok (opcode, data, c'.1) ∧ env.step opcode data c'.1 c.2 = .ok () c'.2

/-- The positions and machines that a script reaches on a stack. -/
def Reaches (stack : List Bytes) (script : CScript) (checks : Nat) (c : CScript × Machine) : Prop :=
  Relation.ReflTransGen env.Round (script, Machine.start stack script checks) c

/-- Where a run from `c` stops: at an operation that cannot be read, or in a round that fails. -/
def StopsAt (c : CScript × Machine) (halt : Halt) (m' : Machine) : Prop :=
  ∃ pc m, Relation.ReflTransGen env.Round c (pc, m) ∧ ((halt = .error .badOpcode ∧ m' = m) ∨
    ∃ opcode data rest, getOp pc = .ok (opcode, data, rest) ∧ env.step opcode data rest m = .error halt m')

theorem evalLoop_ensures (fuel : Nat) (pc : CScript) (m : Machine) (hFuel : pc.length ≤ fuel) :
    Ensures (env.evalLoop fuel pc) m (fun _ m' => Relation.ReflTransGen env.Round (pc, m) ([], m'))
      (fun halt m' => env.StopsAt (pc, m) halt m') := by
  induction fuel generalizing pc m with
  | zero =>
    obtain rfl := List.eq_nil_of_length_eq_zero (Nat.le_zero.mp hFuel)
    exact .pure .refl
  | succ fuel ih =>
    rw [evalLoop]
    refine .ite (fun hEmpty => .pure ?_) fun hSome => ?_
    · rw [List.isEmpty_iff] at hEmpty
      rw [hEmpty]
    · cases hOp : getOp pc with
      | error stopped => exact .throw ⟨pc, m, .refl, .inl ⟨rfl, rfl⟩⟩
      | ok op =>
        obtain ⟨opcode, data, rest⟩ := op
        dsimp only
        cases hStep : env.step opcode data rest m with
        | error halt m' => exact .of_error (bind_error hStep) ⟨pc, m, .refl, .inr ⟨opcode, data, rest, hOp, hStep⟩⟩
        | ok value m' =>
          have hRound : env.Round (pc, m) (rest, m') := ⟨opcode, data, hOp, hStep⟩
          have hShorter := (getOp_suffix hOp).2
          rw [Ensures, bind_ok hStep]
          refine (ih rest m' (by omega)).mono (fun _ _ hRun => .head hRound hRun) ?_
          rintro halt m'' ⟨pc', m₁, hRun, hStop⟩
          exact ⟨pc', m₁, .head hRound hRun, hStop⟩

theorem evalLoop_cons {fuel : Nat} {opcode : UInt8} {pc : CScript} (hHigh : ¬ opcode ≤ OP_PUSHDATA4) (m : Machine) :
    env.evalLoop (fuel + 1) (opcode :: pc) m = (do env.step opcode [] pc; env.evalLoop fuel pc : Exec Unit) m := by
  rw [evalLoop, if_neg (by simp), getOp_plain pc hHigh]

theorem evalLoop_nil (fuel : Nat) : env.evalLoop fuel [] = pure () := by cases fuel <;> rfl

/-- A script succeeds where its loop completes with all conditionals closed. -/
theorem evalScript_eq_ok_iff {stack stack' : List Bytes} {script : CScript} {checks checks' : Nat} :
    evalScript env stack script checks = .ok stack' checks' ↔ script.length ≤ maxScriptSize ∧
      ∃ m', env.evalLoop script.length script (Machine.start stack script checks) = .ok () m' ∧ m'.vfExec = [] ∧
        m'.stack = stack' ∧ m'.sigChecks = checks' := by
  rw [evalScript]
  split
  case isTrue hLong => simp [Nat.not_le.mpr hLong]
  case isFalse hShort =>
    cases hLoop : env.evalLoop script.length script (Machine.start stack script checks) with
    | error halt m => simp
    | ok _ m => cases hConds : m.vfExec <;> simp [hConds, Nat.not_lt.mp hShort]

/-! ## Safety -/

theorem expected_of_stopsAt {c : CScript × Machine} {halt : Halt} {m' : Machine} (hStop : env.StopsAt c halt m') :
    halt.Expected := by
  obtain ⟨pc, m, -, ⟨rfl, -⟩ | ⟨opcode, data, rest, -, hStep⟩⟩ := hStop
  · exact .inl ⟨_, rfl⟩
  · exact ((env.step_ensures opcode data rest m).error hStep).1

theorem error_of_caught {halt : Halt} (h : halt.Expected) : ∃ e, halt.caught = .error e := by
  obtain ⟨e, rfl⟩ | ⟨reason, rfl⟩ := h
  · exact ⟨e, rfl⟩
  · exact ⟨_, rfl⟩

/-! ## Limits -/

variable {env} in
theorem Done.items {fExec : Bool} {pc : CScript} {i : Instruction} {m m' : Machine}
    (hDone : env.Done fExec pc m i m') : m.Items m' := by
  have hAnswer : ∀ {verify fSuccess : Bool} {rest : List Bytes}, (∀ vch ∈ rest, vch ∈ m.stack) →
      ∀ vch ∈ answerStack verify fSuccess rest, vch ∈ m.stack ∨ vch.length ≤ 32 := by
    intro verify fSuccess rest hRest vch hMem
    cases verify with
    | true => exact .inl (hRest vch hMem)
    | false =>
      rcases List.mem_cons.mp hMem with rfl | hMem
      · exact .inr (length_vchBool_le _)
      · exact .inl (hRest vch hMem)
  cases hDone with
  | quiet _ hQuiet => exact hQuiet.items
  | numbered =>
    exact .of_stack rfl (List.forall_mem_cons.mpr ⟨.inr (length_serializeNum_short _), fun vch hMem => .inl hMem⟩)
  | skippedIf _ => exact .refl m
  | takenIf _ hStack =>
    refine .of_stack rfl fun vch hMem => .inl ?_
    rw [hStack]
    exact List.mem_cons_of_mem _ hMem
  | toggled _ => exact .refl m
  | closed _ => exact .refl m
  | separated => exact .refl m
  | checked hChecked =>
    obtain ⟨vchPubKey, vchSig, rest, fSuccess, hStack, -, -, rfl⟩ := hChecked
    refine .of_stack rfl (hAnswer fun vch hMem => ?_)
    rw [hStack]
    exact List.mem_cons_of_mem _ (List.mem_cons_of_mem _ hMem)
  | matched hMatched =>
    obtain ⟨calls, -, rfl⟩ := hMatched.left
    refine .of_stack rfl (hAnswer fun vch hMem => ?_)
    rw [hMatched.stack]
    exact (List.mem_of_mem_drop (MultiSigArgs.drop_dummy _ ▸ List.mem_cons_of_mem _ hMem))

/-- What holds wherever a script can get. -/
structure Limits (script pc : CScript) (m : Machine) : Prop where
  ops : m.nOpCount ≤ maxOpsPerScript
  conditionals : m.vfExec.length ≤ m.nOpCount
  items : ∀ vch ∈ m.stack ++ m.altstack, vch.length ≤ maxScriptElementSize
  code : m.pbegincodehash <:+ script
  position : pc <:+ m.pbegincodehash

/-- What an instruction does to the counter and to the signed script. -/
structure Keeps (pc : CScript) (m m' : Machine) : Prop where
  ops_le : m'.nOpCount ≤ max m.nOpCount maxOpsPerScript
  le_ops : m.nOpCount ≤ m'.nOpCount
  code : m'.pbegincodehash = m.pbegincodehash ∨ m'.pbegincodehash = pc

variable {env} in
theorem Done.keeps {fExec : Bool} {pc : CScript} {i : Instruction} {m m' : Machine} (hDone : env.Done fExec pc m i m') :
    Keeps pc m m' := by
  have hSame : Keeps pc m m := ⟨Nat.le_max_left _ _, Nat.le_refl _, .inl rfl⟩
  cases hDone with
  | quiet _ hQuiet => exact ⟨hQuiet.ops ▸ Nat.le_max_left _ _, hQuiet.ops.ge, .inl hQuiet.code⟩
  | numbered => exact ⟨hSame.ops_le, hSame.le_ops, .inl rfl⟩
  | skippedIf _ => exact ⟨hSame.ops_le, hSame.le_ops, .inl rfl⟩
  | takenIf _ _ => exact ⟨hSame.ops_le, hSame.le_ops, .inl rfl⟩
  | toggled _ => exact ⟨hSame.ops_le, hSame.le_ops, .inl rfl⟩
  | closed _ => exact ⟨hSame.ops_le, hSame.le_ops, .inl rfl⟩
  | separated => exact ⟨hSame.ops_le, hSame.le_ops, .inr rfl⟩
  | checked hChecked =>
    obtain ⟨vchPubKey, vchSig, rest, fSuccess, -, -, -, rfl⟩ := hChecked
    exact ⟨hSame.ops_le, hSame.le_ops, .inl rfl⟩
  | matched hMatched =>
    obtain ⟨calls, -, rfl⟩ := hMatched.left
    exact ⟨hMatched.ops.trans (Nat.le_max_right _ _), Nat.le_add_right _ _, .inl rfl⟩

variable {env} in
theorem Done.vfExec_le {fExec : Bool} {pc : CScript} {i : Instruction} {m m' : Machine}
    (hDone : env.Done fExec pc m i m') :
    m'.vfExec.length ≤ m.vfExec.length ∨ ∃ negated, i = .opIf negated ∧ m'.vfExec.length = m.vfExec.length + 1 := by
  cases hDone with
  | quiet _ hQuiet => exact .inl (hQuiet.vfExec ▸ Nat.le_refl _)
  | numbered => exact .inl (Nat.le_refl _)
  | skippedIf _ => exact .inr ⟨_, rfl, rfl⟩
  | takenIf _ _ => exact .inr ⟨_, rfl, rfl⟩
  | toggled hSome => exact .inl (hSome ▸ Nat.le_refl _)
  | closed hSome => exact .inl (hSome ▸ Nat.le_succ _)
  | separated => exact .inl (Nat.le_refl _)
  | checked hChecked =>
    obtain ⟨vchPubKey, vchSig, rest, fSuccess, -, -, -, rfl⟩ := hChecked
    exact .inl (Nat.le_refl _)
  | matched hMatched =>
    obtain ⟨calls, -, rfl⟩ := hMatched.left
    exact .inl (Nat.le_refl _)

theorem opcode_of_opIf {opcode : UInt8} {negated : Bool} (h : Instruction.ofOpcode opcode = .opIf negated) :
    opcode > OP_16 := by
  refine Instruction.forall_ofOpcode (P := fun opcode i => ∀ negated, i = .opIf negated → opcode > OP_16)
    (fun opcode _ negated h => ?_) (fun opcode negated h => ?_) (by decide) opcode negated h
  · cases h
  · cases h

variable {env} in
theorem Round.size {c c' : CScript × Machine} (hRound : env.Round c c') :
    c'.2.stack.length + c'.2.altstack.length ≤ maxStackSize := by
  obtain ⟨opcode, data, -, hStep⟩ := hRound
  exact ((env.step_ensures opcode data c'.1 c.2).ok hStep).1.size

variable {env} in
theorem Limits.round {script : CScript} {c c' : CScript × Machine} (hLimits : Limits script c.1 c.2)
    (hRound : env.Round c c') : Limits script c'.1 c'.2 := by
  obtain ⟨pc, m⟩ := c
  obtain ⟨rest, m'⟩ := c'
  obtain ⟨opcode, data, hOp, hStep⟩ := hRound
  obtain ⟨hScreened, hDispatched, -⟩ := ((env.step_ensures opcode data rest m).ok hStep).1
  have hPosition : rest <:+ m.pbegincodehash := (getOp_suffix hOp).1.trans hLimits.position
  have hCounted : (counted opcode m).nOpCount ≤ maxOpsPerScript := by
    rw [counted]
    by_cases hHigh : opcode > OP_16
    · rw [if_pos hHigh]
      exact hScreened.ops hHigh
    · rw [if_neg hHigh]
      exact hLimits.ops
  cases hDispatched with
  | pushed _ _ =>
    refine ⟨hCounted, hLimits.conditionals.trans (Nat.le_add_right _ _), ?_, hLimits.code, hPosition⟩
    exact List.forall_mem_cons.mpr ⟨hScreened.size, hLimits.items⟩
  | skipped _ _ =>
    exact ⟨hCounted, hLimits.conditionals.trans (Nat.le_add_right _ _), hLimits.items, hLimits.code, hPosition⟩
  | executed _ _ hDone =>
    obtain ⟨hOpsLe, hLeOps, hCode⟩ := hDone.keeps
    refine ⟨hOpsLe.trans (Nat.max_le.mpr ⟨hCounted, Nat.le_refl _⟩), ?_, ?_, ?_, ?_⟩
    · rcases hDone.vfExec_le with hLe | ⟨negated, hIf, hEq⟩
      · exact hLe.trans (hLimits.conditionals.trans ((Nat.le_add_right _ _).trans hLeOps))
      · have hHigh := opcode_of_opIf hIf
        rw [counted, if_pos hHigh] at hLeOps hEq
        exact hEq.le.trans ((Nat.add_le_add_right hLimits.conditionals 1).trans hLeOps)
    · intro vch hMem
      rcases hDone.items vch hMem with hOld | hShort
      · exact hLimits.items vch hOld
      · exact hShort.trans (by decide)
    · rcases hCode with hCode | hCode
      · exact hCode ▸ hLimits.code
      · exact hCode ▸ hPosition.trans hLimits.code
    · rcases hCode with hCode | hCode
      · exact hCode ▸ hPosition
      · exact hCode ▸ List.suffix_refl _

theorem limits_of_reaches {stack : List Bytes} {script : CScript} {checks : Nat} {c : CScript × Machine}
    (hItems : ∀ vch ∈ stack, vch.length ≤ maxScriptElementSize) (hReach : env.Reaches stack script checks c) :
    Limits script c.1 c.2 := by
  induction hReach with
  | refl =>
    refine ⟨Nat.zero_le _, Nat.le_refl _, ?_, List.suffix_refl _, List.suffix_refl _⟩
    rw [Machine.start, List.append_nil]
    exact hItems
  | tail _ hRound ih => exact ih.round hRound

/-- The bound on both stacks is looked at in every round, so it holds after the first one. -/
theorem size_of_rounds {c c' : CScript × Machine} (hRounds : Relation.TransGen env.Round c c') :
    c'.2.stack.length + c'.2.altstack.length ≤ maxStackSize := by
  cases hRounds with
  | single hRound => exact hRound.size
  | tail _ hRound => exact hRound.size

end Env

/-- How a call of `EvalScript` on a script relates to its runs. -/
theorem evalScript_ensures (env : Env) (stack : List Bytes) (script : CScript) (checks : Nat) :
    Ensures (evalScript env stack script) checks
      (fun stack' checks' => script.length ≤ maxScriptSize ∧ ∃ m, env.Reaches stack script checks ([], m) ∧
        m.vfExec = [] ∧ m.stack = stack' ∧ m.sigChecks = checks')
      (fun halt checks' => (∃ e, halt = .error e) ∧ (checks' = checks ∨
        (∃ m, env.Reaches stack script checks ([], m) ∧ m.sigChecks = checks') ∨
        ∃ halt' m, env.StopsAt (script, Machine.start stack script checks) halt' m ∧ m.sigChecks = checks')) := by
  have hLoop := env.evalLoop_ensures script.length script (Machine.start stack script checks) (Nat.le_refl _)
  rw [Ensures, evalScript]
  by_cases hLong : script.length > maxScriptSize
  · rw [if_pos hLong]
    exact ⟨⟨_, rfl⟩, .inl rfl⟩
  rw [if_neg hLong]
  cases hRun : env.evalLoop script.length script (Machine.start stack script checks) with
  | error halt m =>
    have hStop := hLoop.error hRun
    exact ⟨Env.error_of_caught (env.expected_of_stopsAt hStop), .inr (.inr ⟨halt, m, hStop, rfl⟩)⟩
  | ok value m =>
    have hReach := hLoop.ok hRun
    dsimp only
    by_cases hBalanced : m.vfExec.isEmpty = true
    · rw [if_pos hBalanced]
      exact ⟨Nat.not_lt.mp hLong, m, hReach, List.isEmpty_iff.mp hBalanced, rfl, rfl⟩
    · rw [if_neg hBalanced]
      exact ⟨⟨_, rfl⟩, .inr (.inl ⟨m, hReach, rfl⟩)⟩

/-- Wherever a script gets on a stack of items of the allowed size, it has made at most 201 operations, is in at most as
many conditionals, holds no item above 520 bytes and, after its first round, at most 1000 items, and the script that its
signatures sign is what follows some position in it. The stack it leaves is within the same limits, unless there was
nothing to run. -/
theorem evalScript_stays_within_limits (env : Env) (stack : List Bytes) (script : CScript) (checks : Nat)
    (hItems : ∀ vch ∈ stack, vch.length ≤ maxScriptElementSize) :
    (∀ pc m, env.Reaches stack script checks (pc, m) → Env.Limits script pc m) ∧
      (∀ pc m, Relation.TransGen env.Round (script, Machine.start stack script checks) (pc, m) →
        m.stack.length + m.altstack.length ≤ maxStackSize) ∧
      ∀ stack' checks', evalScript env stack script checks = .ok stack' checks' →
        (∀ vch ∈ stack', vch.length ≤ maxScriptElementSize) ∧
          if script = [] then stack' = stack else stack'.length ≤ maxStackSize := by
  refine ⟨fun pc m hReach => env.limits_of_reaches hItems hReach, fun pc m hRounds => env.size_of_rounds hRounds, ?_⟩
  intro stack' checks' hRun
  obtain ⟨-, m, hReach, -, rfl, -⟩ := (evalScript_ensures env stack script checks).ok hRun
  have hLimits := env.limits_of_reaches hItems hReach
  refine ⟨fun vch hMem => hLimits.items vch (List.mem_append_left _ hMem), ?_⟩
  rcases Relation.reflTransGen_iff_eq_or_transGen.mp hReach with hStart | hRounds
  · obtain ⟨hEmpty, rfl⟩ := Prod.mk.inj hStart
    rw [if_pos hEmpty.symm]
    rfl
  · split
    case isTrue hEmpty =>
      obtain ⟨c, ⟨opcode, data, hOp, -⟩, -⟩ := Relation.TransGen.head'_iff.mp hRounds
      rw [hEmpty] at hOp
      cases hOp
    case isFalse => exact (Nat.le_add_right _ _).trans (env.size_of_rounds hRounds)

/-- A conditional whose first branch copies an item to the other stack, which comes back after it: `OP_IF OP_DUP
OP_TOALTSTACK OP_ELSE OP_DROP OP_ENDIF OP_FROMALTSTACK`. -/
def copyBack : CScript := [0x63, OP_DUP, 0x6b, 0x67, 0x75, 0x68, 0x6c]

/-- Without flags, and with a checker that accepts everything. -/
def lenient : Env := ⟨0, ⟨fun _ _ _ _ => true, fun _ => true, fun _ => true⟩, .base⟩

/-- Inside of the branch, and at the end. -/
theorem evalScript_stays_within_limits_copyBack :
    (∃ m, lenient.Reaches [[1], [7]] copyBack 0 (copyBack.drop 3, m) ∧ m.vfExec = [true] ∧ m.altstack = [[7]] ∧
      Env.Limits copyBack (copyBack.drop 3) m ∧ m.stack.length + m.altstack.length ≤ maxStackSize) ∧
    evalScript lenient [[1], [7]] copyBack 0 = .ok [[7], [7]] 0 ∧
      (∀ vch ∈ [[7], [(7 : UInt8)]], vch.length ≤ maxScriptElementSize) ∧ [[7], [(7 : UInt8)]].length ≤ maxStackSize := by
  obtain ⟨hLimits, hSize, hLeft⟩ := evalScript_stays_within_limits lenient [[1], [7]] copyBack 0 (by decide)
  have hRun : evalScript lenient [[1], [7]] copyBack 0 = .ok [[7], [7]] 0 := rfl
  have hRounds : ∃ m, Relation.TransGen lenient.Round (copyBack, Machine.start [[1], [7]] copyBack 0) (copyBack.drop 3, m) ∧
      m.vfExec = [true] ∧ m.altstack = [[7]] := by
    have hIf : lenient.Round (copyBack, Machine.start [[1], [7]] copyBack 0)
      (copyBack.drop 1, ⟨[[7]], [], [true], copyBack, 1, 0⟩) := ⟨0x63, [], rfl, rfl⟩
    have hDup : lenient.Round (copyBack.drop 1, ⟨[[7]], [], [true], copyBack, 1, 0⟩)
      (copyBack.drop 2, ⟨[[7], [7]], [], [true], copyBack, 2, 0⟩) := ⟨OP_DUP, [], rfl, rfl⟩
    have hToAlt : lenient.Round (copyBack.drop 2, ⟨[[7], [7]], [], [true], copyBack, 2, 0⟩)
      (copyBack.drop 3, ⟨[[7]], [[7]], [true], copyBack, 3, 0⟩) := ⟨0x6b, [], rfl, rfl⟩
    exact ⟨_, .tail (.tail (.single hIf) hDup) hToAlt, rfl, rfl⟩
  obtain ⟨m, hRounds, hConds, hAlt⟩ := hRounds
  refine ⟨⟨m, hRounds.to_reflTransGen, hConds, hAlt, hLimits _ m hRounds.to_reflTransGen, hSize _ m hRounds⟩, hRun, ?_⟩
  exact hLeft _ _ hRun

end BitcoinGpuMiner
