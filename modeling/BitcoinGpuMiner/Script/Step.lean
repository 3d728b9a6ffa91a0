import BitcoinGpuMiner.Encoding.SigOps
import BitcoinGpuMiner.Script.Signatures

/-! # What one round of the loop can do

Most instructions only move items or put new ones of at most 32 bytes on the stack. The others change one variable of
the machine each: the conditionals, the beginning of the signed script, the number of operations and the number of
calls of the checker.
-/

namespace BitcoinGpuMiner

set_option autoImplicit false

open Exec CScript Foundation ScriptValidation

namespace Machine

/-- Every item is an old one or a short one. -/
def Items (m m' : Machine) : Prop :=
  ∀ vch ∈ m'.stack ++ m'.altstack, vch ∈ m.stack ++ m.altstack ∨ vch.length ≤ 32

/-- Nothing but the two stacks has changed. -/
structure Quiet (m m' : Machine) : Prop where
  vfExec : m'.vfExec = m.vfExec
  code : m'.pbegincodehash = m.pbegincodehash
  ops : m'.nOpCount = m.nOpCount
  checks : m'.sigChecks = m.sigChecks
  items : m.Items m'

theorem Items.refl (m : Machine) : m.Items m := fun _ hMem => .inl hMem

theorem Items.of_stack {m m' : Machine} (hAlt : m'.altstack = m.altstack)
    (hStack : ∀ vch ∈ m'.stack, vch ∈ m.stack ∨ vch.length ≤ 32) : m.Items m' := by
  intro vch hMem
  rw [hAlt, List.mem_append] at hMem
  rcases hMem with hMem | hMem
  · exact (hStack vch hMem).imp_left (List.mem_append_left _)
  · exact .inl (List.mem_append_right _ hMem)

theorem Quiet.refl (m : Machine) : m.Quiet m := ⟨rfl, rfl, rfl, rfl, .refl m⟩

theorem Quiet.of_stack {m : Machine} {stack : List Bytes} (hStack : ∀ vch ∈ stack, vch ∈ m.stack ∨ vch.length ≤ 32) :
    m.Quiet { m with stack := stack } := ⟨rfl, rfl, rfl, rfl, .of_stack rfl hStack⟩

end Machine

/-- Programs that change nothing but the stacks and stop in an expected way. -/
def Exec.Moves (p : Exec Unit) : Prop :=
  ∀ m, Ensures p m (fun _ m' => m.Quiet m') (fun halt m' => halt.Expected ∧ m'.sigChecks = m.sigChecks)

theorem length_hashOp_le (op : HashOp) (vch : Bytes) : (op.apply vch).length ≤ 32 := by
  cases op with
  | ripemd160 => exact (Ripemd160.length_hash vch).le.trans (by decide)
  | sha1 => exact (Sha1.length_hash vch).le.trans (by decide)
  | sha256 => exact (Sha256.length_hash vch).le
  | hash160 => exact (length_hash160 vch).le.trans (by decide)
  | hash256 => exact (Uint256.length_bytes _).le

theorem length_serializeNum_short (n : Int) : (serializeNum n).length ≤ 32 := (length_serializeNum_le n).trans (by decide)

theorem length_vchBool_le (b : Bool) : (vchBool b).length ≤ 32 := by cases b <;> decide

theorem StackOp.effect_items {op : StackOp} {stack stack' : List Bytes} (h : op.effect stack = some stack') :
    ∀ vch ∈ stack', vch ∈ stack ∨ vch.length ≤ 32 := by
  have hShort := length_serializeNum_short
  revert h
  fun_cases StackOp.effect op stack <;> intro h <;> cases h <;> grind

namespace Exec.Moves

theorem pure : Moves (pure ()) := fun m => .pure (.refl m)

theorem throw (e : ScriptError) : Moves (MonadExcept.throw (Halt.error e)) := fun _ => .throw ⟨.inl ⟨e, rfl⟩, rfl⟩

theorem onFlag (flags flag : UInt32) {p : Exec Unit} (h : Moves p) : Moves (onFlag flags flag p) := by
  rw [BitcoinGpuMiner.onFlag]
  split
  · exact h
  · exact pure

theorem errorIf (c : Prop) [Decidable c] (e : ScriptError) : Moves (errorIf c e) := by
  rw [BitcoinGpuMiner.errorIf]
  split
  · exact throw e
  · exact pure

theorem execStackOp (op : StackOp) : Moves (execStackOp op) := by
  intro m
  rw [Ensures, execStackOp_eq]
  cases hEffect : op.effect m.stack with
  | none => exact ⟨.inl ⟨_, rfl⟩, rfl⟩
  | some stack => exact .of_stack (StackOp.effect_items hEffect)

theorem execPick (fRequireMinimal roll : Bool) : Moves (execPick fRequireMinimal roll) := by
  intro m
  rw [Ensures, execPick_eq]
  obtain ⟨_ | ⟨vch, _ | ⟨x, rest⟩⟩, altstack, vfExec, code, ops, checks⟩ := m
  · exact ⟨.inl ⟨_, rfl⟩, rfl⟩
  · exact ⟨.inl ⟨_, rfl⟩, rfl⟩
  · dsimp only
    cases CScriptNum.ofVch vch fRequireMinimal CScriptNum.defaultMaxNumSize with
    | error reason => exact ⟨.inr ⟨reason, rfl⟩, rfl⟩
    | ok n =>
      dsimp only
      by_cases hRange : n < 0 ∨ n ≥ (x :: rest).length
      · rw [if_pos hRange]
        exact ⟨.inl ⟨_, rfl⟩, rfl⟩
      · rw [if_neg hRange]
        have hLt : n.toNat < (x :: rest).length := by omega
        refine ⟨rfl, rfl, rfl, rfl, .of_stack rfl (List.forall_mem_cons.mpr ⟨.inl ?_, fun vch' hMem => .inl ?_⟩)⟩
        · rw [List.getD_eq_getElem?_getD, List.getElem?_eq_getElem hLt]
          exact List.mem_cons_of_mem _ (List.getElem_mem hLt)
        · apply List.mem_cons_of_mem
          cases roll with
          | false => exact hMem
          | true => exact List.mem_of_mem_eraseIdx hMem

theorem execEqual (verify : Bool) : Moves (execEqual verify) := by
  intro m
  rw [Ensures, execEqual_eq]
  obtain ⟨_ | ⟨vch2, _ | ⟨vch1, rest⟩⟩, altstack, vfExec, code, ops, checks⟩ := m
  · exact ⟨.inl ⟨_, rfl⟩, rfl⟩
  · exact ⟨.inl ⟨_, rfl⟩, rfl⟩
  · have hRest : ∀ vch ∈ rest, vch ∈ vch2 :: vch1 :: rest := fun vch hMem =>
      List.mem_cons_of_mem _ (List.mem_cons_of_mem _ hMem)
    dsimp only
    cases verify with
    | false =>
      refine .of_stack (List.forall_mem_cons.mpr ⟨.inr (length_vchBool_le _), fun vch hMem => .inl (hRest vch hMem)⟩)
    | true =>
      by_cases hEq : vch1 = vch2
      · rw [if_pos rfl, if_pos hEq]
        exact .of_stack fun vch hMem => .inl (hRest vch hMem)
      · rw [if_pos rfl, if_neg hEq]
        exact ⟨.inl ⟨_, rfl⟩, rfl⟩

theorem execUnary (fRequireMinimal : Bool) (op : UnaryOp) : Moves (execUnary fRequireMinimal op) := by
  intro m
  rw [Ensures, execUnary_eq]
  obtain ⟨_ | ⟨vch, rest⟩, altstack, vfExec, code, ops, checks⟩ := m
  · exact ⟨.inl ⟨_, rfl⟩, rfl⟩
  · dsimp only
    cases CScriptNum.ofVch vch fRequireMinimal CScriptNum.defaultMaxNumSize with
    | error reason => exact ⟨.inr ⟨reason, rfl⟩, rfl⟩
    | ok n =>
      exact .of_stack (List.forall_mem_cons.mpr
        ⟨.inr (length_serializeNum_short _), fun vch' hMem => .inl (List.mem_cons_of_mem _ hMem)⟩)

theorem execBinary (fRequireMinimal : Bool) (op : BinaryOp) : Moves (execBinary fRequireMinimal op) := by
  intro m
  rw [Ensures, execBinary_eq]
  obtain ⟨_ | ⟨vch2, _ | ⟨vch1, rest⟩⟩, altstack, vfExec, code, ops, checks⟩ := m
  · exact ⟨.inl ⟨_, rfl⟩, rfl⟩
  · exact ⟨.inl ⟨_, rfl⟩, rfl⟩
  · have hRest : ∀ vch ∈ rest, vch ∈ vch2 :: vch1 :: rest := fun vch hMem =>
      List.mem_cons_of_mem _ (List.mem_cons_of_mem _ hMem)
    dsimp only
    cases CScriptNum.ofVch vch1 fRequireMinimal CScriptNum.defaultMaxNumSize with
    | error reason => exact ⟨.inr ⟨reason, rfl⟩, rfl⟩
    | ok n1 =>
      cases CScriptNum.ofVch vch2 fRequireMinimal CScriptNum.defaultMaxNumSize with
      | error reason => exact ⟨.inr ⟨reason, rfl⟩, rfl⟩
      | ok n2 =>
        dsimp only
        by_cases hVerify : op = .numEqualVerify
        · rw [if_pos hVerify]
          by_cases hEq : n1 = n2
          · rw [if_pos hEq]
            exact .of_stack fun vch hMem => .inl (hRest vch hMem)
          · rw [if_neg hEq]
            exact ⟨.inl ⟨_, rfl⟩, rfl⟩
        · rw [if_neg hVerify]
          exact .of_stack (List.forall_mem_cons.mpr
            ⟨.inr (length_serializeNum_short _), fun vch' hMem => .inl (hRest vch' hMem)⟩)

theorem execWithin (fRequireMinimal : Bool) : Moves (execWithin fRequireMinimal) := by
  intro m
  rw [Ensures, execWithin_eq]
  obtain ⟨_ | ⟨vch3, _ | ⟨vch2, _ | ⟨vch1, rest⟩⟩⟩, altstack, vfExec, code, ops, checks⟩ := m
  · exact ⟨.inl ⟨_, rfl⟩, rfl⟩
  · exact ⟨.inl ⟨_, rfl⟩, rfl⟩
  · exact ⟨.inl ⟨_, rfl⟩, rfl⟩
  · dsimp only
    cases CScriptNum.ofVch vch1 fRequireMinimal CScriptNum.defaultMaxNumSize with
    | error reason => exact ⟨.inr ⟨reason, rfl⟩, rfl⟩
    | ok n1 =>
      cases CScriptNum.ofVch vch2 fRequireMinimal CScriptNum.defaultMaxNumSize with
      | error reason => exact ⟨.inr ⟨reason, rfl⟩, rfl⟩
      | ok n2 =>
        cases CScriptNum.ofVch vch3 fRequireMinimal CScriptNum.defaultMaxNumSize with
        | error reason => exact ⟨.inr ⟨reason, rfl⟩, rfl⟩
        | ok n3 =>
          exact .of_stack (List.forall_mem_cons.mpr ⟨.inr (length_vchBool_le _), fun vch hMem =>
            .inl (List.mem_cons_of_mem _ (List.mem_cons_of_mem _ (List.mem_cons_of_mem _ hMem)))⟩)

theorem execHash (op : HashOp) : Moves (execHash op) := by
  intro m
  rw [Ensures, execHash_eq]
  obtain ⟨_ | ⟨vch, rest⟩, altstack, vfExec, code, ops, checks⟩ := m
  · exact ⟨.inl ⟨_, rfl⟩, rfl⟩
  · exact .of_stack (List.forall_mem_cons.mpr
      ⟨.inr (length_hashOp_le op vch), fun vch' hMem => .inl (List.mem_cons_of_mem _ hMem)⟩)

theorem execVerify : Moves Env.execVerify := by
  intro m
  rw [Ensures, execVerify_eq]
  obtain ⟨_ | ⟨vch, rest⟩, altstack, vfExec, code, ops, checks⟩ := m
  · exact ⟨.inl ⟨_, rfl⟩, rfl⟩
  · dsimp only
    by_cases hTrue : castToBool vch = true
    · rw [if_pos hTrue]
      exact .of_stack fun vch' hMem => .inl (List.mem_cons_of_mem _ hMem)
    · rw [if_neg hTrue]
      exact ⟨.inl ⟨_, rfl⟩, rfl⟩

theorem execToAltStack : Moves Env.execToAltStack := by
  intro m
  rw [Ensures, execToAltStack_eq]
  obtain ⟨_ | ⟨vch, rest⟩, altstack, vfExec, code, ops, checks⟩ := m
  · exact ⟨.inl ⟨_, rfl⟩, rfl⟩
  · refine ⟨rfl, rfl, rfl, rfl, fun vch' hMem => .inl ?_⟩
    change vch' ∈ rest ++ vch :: altstack at hMem
    change vch' ∈ vch :: (rest ++ altstack)
    exact List.perm_middle.mem_iff.mp hMem

theorem execFromAltStack : Moves Env.execFromAltStack := by
  rintro ⟨stack, _ | ⟨vch, rest⟩, vfExec, code, ops, checks⟩
  · exact ⟨.inl ⟨_, rfl⟩, rfl⟩
  · refine ⟨rfl, rfl, rfl, rfl, fun vch' hMem => .inl ?_⟩
    exact List.perm_middle.mem_iff.mpr hMem

theorem execCheckLockTimeVerify (env : Env) : Moves env.execCheckLockTimeVerify := by
  apply onFlag
  intro m
  exact .stackSize (.errorIf (fun _ => ⟨.inl ⟨_, rfl⟩, rfl⟩) fun hSome => .stackTop (by omega) fun vch _ =>
    .scriptNum (fun reason _ => ⟨.inr ⟨reason, rfl⟩, rfl⟩) fun n _ => .errorIf (fun _ => ⟨.inl ⟨_, rfl⟩, rfl⟩) fun _ =>
    errorIf _ _ m)

theorem execCheckSequenceVerify (env : Env) : Moves env.execCheckSequenceVerify := by
  apply onFlag
  intro m
  exact .stackSize (.errorIf (fun _ => ⟨.inl ⟨_, rfl⟩, rfl⟩) fun hSome => .stackTop (by omega) fun vch _ =>
    .scriptNum (fun reason _ => ⟨.inr ⟨reason, rfl⟩, rfl⟩) fun n _ => .errorIf (fun _ => ⟨.inl ⟨_, rfl⟩, rfl⟩) fun _ =>
    .ite (fun _ => pure m) fun _ => errorIf _ _ m)

end Exec.Moves

/-- A property of all opcodes follows from the entries of the table. -/
theorem Instruction.forall_ofOpcode {P : UInt8 → Instruction → Prop}
    (hNumber : ∀ opcode ≤ OP_16, P opcode (.number ((opcode.toNat : Int) - 0x50))) (hUnknown : ∀ opcode, P opcode .unknown)
    (hTable : ∀ entry ∈ table, P entry.1 entry.2) (opcode : UInt8) : P opcode (ofOpcode opcode) := by
  rw [ofOpcode]
  by_cases hRange : opcode = 0x4f ∨ (OP_1 ≤ opcode ∧ opcode ≤ OP_16)
  · rw [if_pos hRange]
    apply hNumber
    rcases hRange with rfl | hRange
    · decide
    · exact hRange.2
  · rw [if_neg hRange]
    cases hFound : table.lookup opcode with
    | none => exact hUnknown opcode
    | some i =>
      obtain ⟨before, after, hEq, -⟩ := List.lookup_eq_some_iff.mp hFound
      exact hTable (opcode, i) (hEq ▸ List.mem_append_right _ List.mem_cons_self)

/-- The instructions of which more is known than that they change nothing but the stacks. -/
def Instruction.special : Instruction → Bool
  | .number _ => true
  | .opIf _ => true
  | .opElse => true
  | .opEndIf => true
  | .opReturn => true
  | .unknown => true
  | _ => false

namespace Env

variable (env : Env)

/-- The number of keys that `OP_CHECKMULTISIG` takes from the top of the stack. -/
def keyCount (m : Machine) : Nat :=
  match m.stack with
  | [] => 0
  | vch :: _ =>
    match CScriptNum.ofVch vch env.fRequireMinimal CScriptNum.defaultMaxNumSize with
    | .ok n => if n < 0 ∨ n > 20 then 0 else n.toNat
    | .error _ => 0

theorem keyCount_eq {m : Machine} {vch : Bytes} {rest : List Bytes} {n : Nat} (hStack : m.stack = vch :: rest)
    (hNum : CScriptNum.ofVch vch env.fRequireMinimal CScriptNum.defaultMaxNumSize = .ok n) (hTwenty : n ≤ 20) :
    env.keyCount m = n := by
  rw [keyCount, hStack]
  dsimp only
  rw [hNum]
  dsimp only
  rw [if_neg (by omega), Int.toNat_natCast]

/-- How often an instruction may call the checker. -/
def maxCalls (m : Machine) : Instruction → Nat
  | .checkSig _ => 1
  | .checkMultiSig _ => env.keyCount m
  | _ => 0

/-- All that a completed instruction can have done. -/
inductive Done (fExec : Bool) (pc : CScript) (m : Machine) : Instruction → Machine → Prop
  | quiet {i : Instruction} {m' : Machine} : i.special = false → m.Quiet m' → Done fExec pc m i m'
  | numbered {n : Int} : Done fExec pc m (.number n) { m with stack := serializeNum n :: m.stack }
  | skippedIf {negated : Bool} : fExec = false →
      Done fExec pc m (.opIf negated) { m with vfExec := false :: m.vfExec }
  | takenIf {negated : Bool} {vch : Bytes} {stack : List Bytes} : fExec = true → m.stack = vch :: stack →
      Done fExec pc m (.opIf negated) { m with stack := stack, vfExec := (castToBool vch != negated) :: m.vfExec }
  | toggled {fValue : Bool} {rest : List Bool} : m.vfExec = fValue :: rest →
      Done fExec pc m .opElse { m with vfExec := (!fValue) :: rest }
  | closed {fValue : Bool} {rest : List Bool} : m.vfExec = fValue :: rest →
      Done fExec pc m .opEndIf { m with vfExec := rest }
  | separated : Done fExec pc m .codeSeparator { m with pbegincodehash := pc }
  | checked {verify : Bool} {m' : Machine} : env.CheckSigDone verify m m' → Done fExec pc m (.checkSig verify) m'
  | matched {verify : Bool} {args : MultiSigArgs} {fSuccess : Bool} {m' : Machine} :
      env.MultiSigDone verify args fSuccess m m' → Done fExec pc m (.checkMultiSig verify) m'

/-- How an instruction can stop. -/
def Stopped (calls : Nat) (m : Machine) (halt : Halt) (m' : Machine) : Prop :=
  halt.Expected ∧ m'.sigChecks ≤ m.sigChecks + calls

theorem ifValue_ensures (negated : Bool) (m : Machine) : Ensures (env.ifValue true negated) m
    (fun fValue m' => ∃ vch rest, m.stack = vch :: rest ∧ fValue = (castToBool vch != negated) ∧
      m' = { m with stack := rest }) (Stopped 0 m) := by
  have hStop : ∀ e, Stopped 0 m (.error e) m := fun e => ⟨.inl ⟨e, rfl⟩, Nat.le_refl _⟩
  rw [ifValue, if_pos rfl]
  refine .stackSize (.errorIf (fun _ => hStop _) fun hSome => .stackTop (by omega) fun vch hTop =>
    .static (.onFlag _ _ (.bind (.errorIf _ _) fun _ => .errorIf _ _)) hStop fun _ _ => .popStack (by omega) ?_)
  obtain ⟨_ | ⟨vch', rest⟩, altstack, vfExec, code, ops, checks⟩ := m
  · cases hTop
  · cases hTop
    exact .pure ⟨vch, rest, rfl, rfl, rfl⟩

theorem execIf_ensures (fExec negated : Bool) (pc : CScript) (m : Machine) : Ensures (env.execIf fExec negated) m
    (fun _ m' => env.Done fExec pc m (.opIf negated) m') (Stopped 0 m) := by
  cases fExec with
  | false => exact .of_ok rfl (.skippedIf rfl)
  | true =>
    refine .bind (env.ifValue_ensures negated m) ?_
    rintro _ _ ⟨vch, rest, hStack, rfl, rfl⟩
    exact .of_ok rfl (.takenIf rfl hStack)

theorem exec_ensures (fExec : Bool) (pc : CScript) (i : Instruction) (m : Machine) : Ensures (env.exec fExec pc i) m
    (fun _ m' => env.Done fExec pc m i m') (Stopped (env.maxCalls m i) m) := by
  have hMoves : ∀ {p : Exec Unit}, i.special = false → Moves p →
      Ensures p m (fun _ m' => env.Done fExec pc m i m') (Stopped (env.maxCalls m i) m) := fun hPlain h =>
    (h m).mono (fun _ _ hQuiet => .quiet hPlain hQuiet) fun halt m' hStop => ⟨hStop.1, hStop.2 ▸ Nat.le_add_right _ _⟩
  cases i with
  | number n => exact .of_ok rfl .numbered
  | nop => exact hMoves rfl .pure
  | checkLockTimeVerify => exact hMoves rfl (.execCheckLockTimeVerify env)
  | checkSequenceVerify => exact hMoves rfl (.execCheckSequenceVerify env)
  | upgradableNop => exact hMoves rfl (.onFlag _ _ (.throw _))
  | opIf negated => exact env.execIf_ensures fExec negated pc m
  | opElse =>
    obtain ⟨stack, altstack, _ | ⟨fValue, rest⟩, code, ops, checks⟩ := m
    · exact ⟨.inl ⟨_, rfl⟩, Nat.le_refl _⟩
    · exact .of_ok rfl (.toggled rfl)
  | opEndIf =>
    obtain ⟨stack, altstack, _ | ⟨fValue, rest⟩, code, ops, checks⟩ := m
    · exact ⟨.inl ⟨_, rfl⟩, Nat.le_refl _⟩
    · exact .of_ok rfl (.closed rfl)
  | verify => exact hMoves rfl .execVerify
  | opReturn => exact .throw ⟨.inl ⟨_, rfl⟩, Nat.le_refl _⟩
  | toAltStack => exact hMoves rfl .execToAltStack
  | fromAltStack => exact hMoves rfl .execFromAltStack
  | stackOp op => exact hMoves rfl (.execStackOp op)
  | pick => exact hMoves rfl (.execPick _ false)
  | roll => exact hMoves rfl (.execPick _ true)
  | equal verify => exact hMoves rfl (.execEqual verify)
  | unary op => exact hMoves rfl (.execUnary _ op)
  | binary op => exact hMoves rfl (.execBinary _ op)
  | within => exact hMoves rfl (.execWithin _)
  | hash op => exact hMoves rfl (.execHash op)
  | codeSeparator => exact .of_ok rfl .separated
  | checkSig verify =>
    exact (env.execCheckSig_ensures verify m).mono (fun _ _ hDone => .checked hDone) fun halt m' hStop =>
      ⟨.inl hStop.1, hStop.2⟩
  | checkMultiSig verify =>
    refine (env.execCheckMultiSig_ensures verify m).mono ?_ ?_
    · rintro _ m' ⟨args, fSuccess, hDone⟩
      exact .matched hDone
    · rintro halt m' ⟨hHalt, calls, hChecks, hCalls⟩
      refine ⟨hHalt, ?_⟩
      rcases hCalls with rfl | ⟨vch, rest, n, hStack, hNum, hLe, hTwenty⟩
      · omega
      · rw [maxCalls, env.keyCount_eq hStack hNum hTwenty]
        omega
  | unknown => exact .throw ⟨.inl ⟨_, rfl⟩, Nat.le_refl _⟩

/-! ## One round -/

/-- The machine after an operation has been counted. -/
def counted (opcode : UInt8) (m : Machine) : Machine :=
  { m with nOpCount := m.nOpCount + if opcode > OP_16 then 1 else 0 }

/-- What every operation has passed, executed or not. -/
structure Screened (opcode : UInt8) (vchPushValue : Bytes) (m : Machine) : Prop where
  size : vchPushValue.length ≤ maxScriptElementSize
  ops : opcode > OP_16 → m.nOpCount + 1 ≤ maxOpsPerScript
  enabled : opcode ∉ disabledOpcodes

theorem countOp_ensures (opcode : UInt8) (m : Machine) : Ensures (countOp opcode) m
    (fun _ m' => m' = counted opcode m ∧ (opcode > OP_16 → m.nOpCount + 1 ≤ maxOpsPerScript)) (Stopped 0 m) := by
  rw [countOp]
  refine .ite (fun hHigh => .modify (.get ?_)) fun hLow => .pure ?_
  · rw [errorIf]
    refine .ite (fun _ => .throw ⟨.inl ⟨_, rfl⟩, Nat.le_refl _⟩) fun hOps => .pure ⟨?_, fun _ => Nat.not_lt.mp hOps⟩
    rw [counted, if_pos hHigh]
  · refine ⟨?_, fun hHigh => absurd hHigh hLow⟩
    rw [counted, if_neg hLow]
    rfl

theorem screen_ensures (opcode : UInt8) (vchPushValue : Bytes) (m : Machine) :
    Ensures (env.screen opcode vchPushValue) m
      (fun _ m' => m' = counted opcode m ∧ Screened opcode vchPushValue m) (Stopped 0 m) := by
  refine .errorIf (fun _ => ⟨.inl ⟨_, rfl⟩, Nat.le_refl _⟩) fun hSize => .bind (countOp_ensures opcode m) ?_
  rintro _ _ ⟨rfl, hOps⟩
  refine .errorIf (fun _ => ⟨.inl ⟨_, rfl⟩, Nat.le_refl _⟩) fun hEnabled => ?_
  rw [onFlag_errorIf, errorIf]
  exact .ite (fun _ => .throw ⟨.inl ⟨_, rfl⟩, Nat.le_refl _⟩) fun _ => .pure ⟨rfl, Nat.not_lt.mp hSize, hOps, hEnabled⟩

theorem execPush_ensures {opcode : UInt8} (vchPushValue : Bytes) (m : Machine) (hOp : opcode ≤ OP_PUSHDATA4) :
    Ensures (env.execPush opcode vchPushValue) m (fun _ m' => m' = { m with stack := vchPushValue :: m.stack })
      (Stopped 0 m) := by
  rw [execPush, assert_of hOp]
  exact .static (.onFlag _ _ (.bind (.pure ()) fun _ => .errorIf _ _)) (fun e => ⟨.inl ⟨e, rfl⟩, Nat.le_refl _⟩) fun _ _ =>
    .of_ok rfl rfl

/-- Whether an operation is one of `OP_IF` to `OP_ENDIF`, which are looked at in every branch. -/
def inIfRange (opcode : UInt8) : Prop := OP_IF ≤ opcode ∧ opcode ≤ OP_ENDIF

instance (opcode : UInt8) : Decidable (inIfRange opcode) := inferInstanceAs (Decidable (_ ∧ _))

/-- All that a completed round can have done. -/
inductive Dispatched (fExec : Bool) (opcode : UInt8) (vchPushValue : Bytes) (pc : CScript) (m : Machine) : Machine → Prop
  | pushed : fExec = true → opcode ≤ OP_PUSHDATA4 →
      Dispatched fExec opcode vchPushValue pc m { m with stack := vchPushValue :: m.stack }
  | executed {m' : Machine} : ¬ (fExec = true ∧ opcode ≤ OP_PUSHDATA4) → fExec = true ∨ inIfRange opcode →
      env.Done fExec pc m (Instruction.ofOpcode opcode) m' → Dispatched fExec opcode vchPushValue pc m m'
  | skipped : fExec = false → ¬ inIfRange opcode → Dispatched fExec opcode vchPushValue pc m m

/-- How often an operation may call the checker. -/
def callsOf (fExec : Bool) (opcode : UInt8) (m : Machine) : Nat :=
  if fExec then env.maxCalls m (Instruction.ofOpcode opcode) else 0

theorem ofOpcode_inIfRange {opcode : UInt8} (hRange : inIfRange opcode) :
    Instruction.ofOpcode opcode ∈ [.opIf false, .opIf true, .opElse, .opEndIf, .unknown] := by
  refine Instruction.forall_ofOpcode
    (P := fun opcode i => inIfRange opcode → i ∈ [.opIf false, .opIf true, .opElse, .opEndIf, .unknown])
    (fun opcode hLow hRange => ?_) (fun opcode _ => by decide) (by decide) opcode hRange
  exact absurd (UInt8.le_trans hRange.1 hLow) (by decide)

theorem maxCalls_inIfRange (m : Machine) {opcode : UInt8} (hRange : inIfRange opcode) :
    env.maxCalls m (Instruction.ofOpcode opcode) = 0 := by
  have hMem := ofOpcode_inIfRange hRange
  simp only [List.mem_cons, List.not_mem_nil, or_false] at hMem
  rcases hMem with h | h | h | h | h <;> rw [h] <;> rfl

theorem dispatch_ensures (fExec : Bool) (opcode : UInt8) (vchPushValue : Bytes) (pc : CScript) (m : Machine) :
    Ensures (env.dispatch fExec opcode vchPushValue pc) m (fun _ m' => env.Dispatched fExec opcode vchPushValue pc m m')
      (Stopped (env.callsOf fExec opcode m) m) := by
  have hWeaken : ∀ halt m', Stopped 0 m halt m' → Stopped (env.callsOf fExec opcode m) m halt m' :=
    fun halt m' hStop => ⟨hStop.1, hStop.2.trans (Nat.le_add_right _ _)⟩
  rw [dispatch]
  refine .ite (fun hPush => (env.execPush_ensures vchPushValue m hPush.2).mono ?_ hWeaken) fun hOther =>
    .ite (fun hExec => (env.exec_ensures fExec pc _ m).mono (fun _ _ hDone => .executed hOther hExec hDone) ?_)
      fun hNot => .pure ?_
  · rintro _ _ rfl
    exact .pushed hPush.1 hPush.2
  · rintro halt m' ⟨hHalt, hCalls⟩
    refine ⟨hHalt, ?_⟩
    cases fExec with
    | true => exact hCalls
    | false =>
      rw [env.maxCalls_inIfRange m (hExec.resolve_left Bool.false_ne_true)] at hCalls
      exact hCalls
  · refine .skipped ?_ fun hRange => hNot (.inr hRange)
    cases fExec with
    | true => exact absurd (.inl rfl) hNot
    | false => rfl

/-- All that a completed round can have done. -/
structure StepDone (opcode : UInt8) (vchPushValue : Bytes) (pc : CScript) (m m' : Machine) : Prop where
  screened : Screened opcode vchPushValue m
  dispatched : env.Dispatched (m.vfExec.all id) opcode vchPushValue pc (counted opcode m) m'
  size : m'.stack.length + m'.altstack.length ≤ maxStackSize

theorem callsOf_counted (fExec : Bool) (opcode opcode' : UInt8) (m : Machine) :
    env.callsOf fExec opcode (counted opcode' m) = env.callsOf fExec opcode m := by
  rw [callsOf, callsOf]
  cases Instruction.ofOpcode opcode <;> rfl

theorem Stopped.mono {calls calls' : Nat} {m m' : Machine} {halt : Halt} (hStop : Stopped calls m halt m')
    (hLe : calls ≤ calls') : Stopped calls' m halt m' := ⟨hStop.1, hStop.2.trans (Nat.add_le_add_left hLe _)⟩

theorem Done.checks_le {fExec : Bool} {pc : CScript} {i : Instruction} {m m' : Machine}
    (hDone : env.Done fExec pc m i m') : m'.sigChecks ≤ m.sigChecks + env.maxCalls m i := by
  cases hDone with
  | quiet _ hQuiet => exact hQuiet.checks ▸ Nat.le_add_right _ _
  | numbered => exact Nat.le_refl _
  | skippedIf _ => exact Nat.le_refl _
  | takenIf _ _ => exact Nat.le_refl _
  | toggled _ => exact Nat.le_refl _
  | closed _ => exact Nat.le_refl _
  | separated => exact Nat.le_refl _
  | checked hChecked =>
    obtain ⟨vchPubKey, vchSig, rest, fSuccess, -, -, -, rfl⟩ := hChecked
    exact Nat.le_refl _
  | matched hMatched =>
    obtain ⟨calls, hCalls, hLeft⟩ := hMatched.left
    rw [maxCalls, env.keyCount_eq hMatched.stack hMatched.keyCount hMatched.keys_le, hLeft]
    exact Nat.add_le_add_left hCalls _

theorem Dispatched.checks_le {fExec : Bool} {opcode : UInt8} {vchPushValue : Bytes} {pc : CScript} {m m' : Machine}
    (hDispatched : env.Dispatched fExec opcode vchPushValue pc m m') :
    m'.sigChecks ≤ m.sigChecks + env.callsOf fExec opcode m := by
  cases hDispatched with
  | pushed => exact Nat.le_add_right _ _
  | skipped => exact Nat.le_add_right _ _
  | executed _ hExec hDone =>
    have hLe := hDone.checks_le
    cases fExec with
    | true => exact hLe
    | false =>
      rw [env.maxCalls_inIfRange m (hExec.resolve_left Bool.false_ne_true)] at hLe
      exact hLe

theorem step_ensures (opcode : UInt8) (vchPushValue : Bytes) (pc : CScript) (m : Machine) :
    Ensures (env.step opcode vchPushValue pc) m (fun _ m' => env.StepDone opcode vchPushValue pc m m' ∧
      m'.sigChecks ≤ m.sigChecks + env.callsOf (m.vfExec.all id) opcode m)
      (Stopped (env.callsOf (m.vfExec.all id) opcode m) m) := by
  refine .get (.bind ((env.screen_ensures opcode vchPushValue m).mono (fun _ _ h => h)
    fun _ _ hStop => hStop.mono (Nat.zero_le _)) ?_)
  rintro _ _ ⟨rfl, hScreened⟩
  refine .bind ((env.dispatch_ensures (m.vfExec.all id) opcode vchPushValue pc (counted opcode m)).mono
    (fun _ _ h => h) fun halt m' hStop => ?_) fun _ m' hDispatched => .get ?_
  · rw [callsOf_counted] at hStop
    exact hStop
  · have hChecks := hDispatched.checks_le
    rw [callsOf_counted] at hChecks
    rw [errorIf]
    exact .ite (fun _ => .throw ⟨.inl ⟨_, rfl⟩, hChecks⟩) fun hSize =>
      .pure ⟨⟨hScreened, hDispatched, Nat.not_lt.mp hSize⟩, hChecks⟩

/-! ## Rounds that pass the tests -/

/-- The test at the end of every round. -/
def checkSize : Exec Unit := do
  let m ← get
  errorIf (m.stack.length + m.altstack.length > maxStackSize) .stackSize

theorem checkSize_ok_iff {m m' : Machine} :
    checkSize m = .ok () m' ↔ m.stack.length + m.altstack.length ≤ maxStackSize ∧ m = m' := by
  change (errorIf (m.stack.length + m.altstack.length > maxStackSize) .stackSize : Exec Unit) m = .ok () m' ↔ _
  rw [errorIf]
  split
  case isTrue hLong =>
    refine ⟨fun hRun => ?_, fun hFits => absurd hLong (Nat.not_lt.mpr hFits.1)⟩
    cases hRun
  case isFalse hFits =>
    refine ⟨fun hRun => ?_, fun hSame => hSame.2 ▸ rfl⟩
    cases hRun
    exact ⟨Nat.not_lt.mp hFits, rfl⟩

/-- What the tests ask of an operation that is not a push. -/
structure Passes (opcode : UInt8) (m : Machine) : Prop where
  high : ¬ opcode ≤ OP_PUSHDATA4
  ops : opcode > OP_16 → m.nOpCount + 1 ≤ maxOpsPerScript
  enabled : opcode ∉ disabledOpcodes
  noSeparator : opcode ≠ OP_CODESEPARATOR

theorem countOp_eq {opcode : UInt8} {m : Machine} (hOps : opcode > OP_16 → m.nOpCount + 1 ≤ maxOpsPerScript) :
    countOp opcode m = .ok () (counted opcode m) := by
  rw [countOp, counted]
  by_cases hHigh : opcode > OP_16
  · have hFew : ¬ m.nOpCount + 1 > maxOpsPerScript := Nat.not_lt.mpr (hOps hHigh)
    rw [if_pos hHigh, if_pos hHigh]
    change errorIf (m.nOpCount + 1 > maxOpsPerScript) _ _ = _
    rw [errorIf, if_neg hFew]
    rfl
  · rw [if_neg hHigh, if_neg hHigh]
    rfl

theorem screen_eq {opcode : UInt8} {vchPushValue : Bytes} {m : Machine}
    (hSize : vchPushValue.length ≤ maxScriptElementSize) (hOps : opcode > OP_16 → m.nOpCount + 1 ≤ maxOpsPerScript)
    (hEnabled : opcode ∉ disabledOpcodes) (hSeparator : opcode ≠ OP_CODESEPARATOR) :
    env.screen opcode vchPushValue m = .ok () (counted opcode m) := by
  have hTest : ∀ c : Prop, [Decidable c] → ∀ e, ¬ c → (errorIf c e : Exec Unit) = pure () := fun c _ e hNot => if_neg hNot
  rw [screen, hTest _ _ (Nat.not_lt.mpr hSize), hTest _ _ hEnabled, onFlag_errorIf,
    hTest _ _ fun hBad => hSeparator hBad.2.1]
  exact bind_ok (countOp_eq hOps)

/-- An operation that is not a push, where it is executed. -/
theorem step_exec {opcode : UInt8} {pc : CScript} {m : Machine} (hExec : m.vfExec.all id = true)
    (hPasses : Passes opcode m) : env.step opcode [] pc m =
      (do
        env.exec true pc (Instruction.ofOpcode opcode)
        checkSize : Exec Unit) (counted opcode m) := by
  have hSize : ([] : Bytes).length ≤ maxScriptElementSize := Nat.zero_le _
  have hScreen := env.screen_eq hSize hPasses.ops hPasses.enabled hPasses.noSeparator
  change (do
    env.screen opcode []
    env.dispatch (m.vfExec.all id) opcode [] pc
    checkSize : Exec Unit) m = _
  rw [bind_ok hScreen, hExec, dispatch, if_neg fun hPush => hPasses.high hPush.2, if_pos (.inl rfl)]

end Env

end BitcoinGpuMiner
