import BitcoinGpuMiner.Foundation.Program
import BitcoinGpuMiner.Model.Interpreter

/-! # What each instruction does to the stack

The bodies of the `switch` work with positions counted from the top of the stack, with `erase`, `insert` and `swap`.
Here every one of them is given as a function on the list of items, in the shape of the pictures in the comments of
the source. None of the checks that `at`, `popstack`, the iterators and the 64-bit numbers stand for ever fails.
-/

namespace BitcoinGpuMiner

set_option autoImplicit false

open Exec CScript Foundation

/-- The pictures, top first; `none` where the stack is too short. -/
def StackOp.effect : StackOp → List Bytes → Option (List Bytes)
  | .drop2, _ :: _ :: rest => some rest
  | .dup2, x2 :: x1 :: rest => some (x2 :: x1 :: x2 :: x1 :: rest)
  | .dup3, x3 :: x2 :: x1 :: rest => some (x3 :: x2 :: x1 :: x3 :: x2 :: x1 :: rest)
  | .over2, x4 :: x3 :: x2 :: x1 :: rest => some (x2 :: x1 :: x4 :: x3 :: x2 :: x1 :: rest)
  | .rot2, x6 :: x5 :: x4 :: x3 :: x2 :: x1 :: rest => some (x2 :: x1 :: x6 :: x5 :: x4 :: x3 :: rest)
  | .swap2, x4 :: x3 :: x2 :: x1 :: rest => some (x2 :: x1 :: x4 :: x3 :: rest)
  | .ifDup, x :: rest => some (if castToBool x then x :: x :: rest else x :: rest)
  | .depth, stack => some (serializeNum stack.length :: stack)
  | .drop, _ :: rest => some rest
  | .dup, x :: rest => some (x :: x :: rest)
  | .nip, x2 :: _ :: rest => some (x2 :: rest)
  | .over1, x2 :: x1 :: rest => some (x1 :: x2 :: x1 :: rest)
  | .rot, x3 :: x2 :: x1 :: rest => some (x1 :: x3 :: x2 :: rest)
  | .swap, x2 :: x1 :: rest => some (x1 :: x2 :: rest)
  | .tuck, x2 :: x1 :: rest => some (x2 :: x1 :: x2 :: rest)
  | .size, x :: rest => some (serializeNum x.length :: x :: rest)
  | _, _ => none

def UnaryOp.value (bn : Int) : UnaryOp → Int
  | .add1 => bn + 1
  | .sub1 => bn - 1
  | .negate => -bn
  | .abs => bn.natAbs
  | .not => if bn = 0 then 1 else 0
  | .notEqual0 => if bn = 0 then 0 else 1

def BinaryOp.value (bn1 bn2 : Int) : BinaryOp → Int
  | .add => bn1 + bn2
  | .sub => bn1 - bn2
  | .boolAnd => if bn1 ≠ 0 ∧ bn2 ≠ 0 then 1 else 0
  | .boolOr => if bn1 ≠ 0 ∨ bn2 ≠ 0 then 1 else 0
  | .numEqual => if bn1 = bn2 then 1 else 0
  | .numEqualVerify => if bn1 = bn2 then 1 else 0
  | .numNotEqual => if bn1 = bn2 then 0 else 1
  | .lessThan => if bn1 < bn2 then 1 else 0
  | .greaterThan => if bn2 < bn1 then 1 else 0
  | .lessThanOrEqual => if bn1 ≤ bn2 then 1 else 0
  | .greaterThanOrEqual => if bn2 ≤ bn1 then 1 else 0
  | .min => Min.min bn1 bn2
  | .max => Max.max bn1 bn2

theorem execStackOp_eq (op : StackOp) (m : Machine) : execStackOp op m =
    match op.effect m.stack with
    | some stack => .ok () { m with stack := stack }
    | none => .error (.error .invalidStackOperation) m := by
  obtain ⟨stack, altstack, vfExec, code, ops, checks⟩ := m
  cases op with
  | drop2 => rcases stack with _ | ⟨x2, _ | ⟨x1, rest⟩⟩ <;> rfl
  | dup2 => rcases stack with _ | ⟨x2, _ | ⟨x1, rest⟩⟩ <;> rfl
  | dup3 => rcases stack with _ | ⟨x3, _ | ⟨x2, _ | ⟨x1, rest⟩⟩⟩ <;> rfl
  | over2 => rcases stack with _ | ⟨x4, _ | ⟨x3, _ | ⟨x2, _ | ⟨x1, rest⟩⟩⟩⟩ <;> rfl
  | rot2 => rcases stack with _ | ⟨x6, _ | ⟨x5, _ | ⟨x4, _ | ⟨x3, _ | ⟨x2, _ | ⟨x1, rest⟩⟩⟩⟩⟩⟩ <;> rfl
  | swap2 => rcases stack with _ | ⟨x4, _ | ⟨x3, _ | ⟨x2, _ | ⟨x1, rest⟩⟩⟩⟩ <;> rfl
  | ifDup =>
    rcases stack with _ | ⟨x, rest⟩
    · rfl
    · change (if castToBool x then pushStack x else pure ()) (Machine.mk (x :: rest) _ _ _ _ _) =
        .ok () (Machine.mk (if castToBool x then x :: x :: rest else x :: rest) _ _ _ _ _)
      split <;> rfl
  | depth => rfl
  | drop => rcases stack with _ | ⟨x, rest⟩ <;> rfl
  | dup => rcases stack with _ | ⟨x, rest⟩ <;> rfl
  | nip => rcases stack with _ | ⟨x2, _ | ⟨x1, rest⟩⟩ <;> rfl
  | over1 => rcases stack with _ | ⟨x2, _ | ⟨x1, rest⟩⟩ <;> rfl
  | rot => rcases stack with _ | ⟨x3, _ | ⟨x2, _ | ⟨x1, rest⟩⟩⟩ <;> rfl
  | swap => rcases stack with _ | ⟨x2, _ | ⟨x1, rest⟩⟩ <;> rfl
  | tuck => rcases stack with _ | ⟨x2, _ | ⟨x1, rest⟩⟩ <;> rfl
  | size => rcases stack with _ | ⟨x, rest⟩ <;> rfl

/-! ## Numbers -/

/-- Numbers of four bytes are far from the bounds of 64 bits. -/
theorem natAbs_lt_of_ofVch {vch : Bytes} {fRequireMinimal : Bool} {n : Int}
    (hNum : CScriptNum.ofVch vch fRequireMinimal CScriptNum.defaultMaxNumSize = .ok n) : n.natAbs < 2 ^ 31 := by
  rw [CScriptNum.ofVch] at hNum
  split at hNum
  · cases hNum
  · rename_i hShort
    split at hNum
    · cases hNum
    · cases hNum
      exact CScriptNum.natAbs_setVch_lt_of_length (by decide) (Nat.not_lt.mp hShort)

theorem getint_of_ofVch {vch : Bytes} {fRequireMinimal : Bool} {n : Int}
    (hNum : CScriptNum.ofVch vch fRequireMinimal CScriptNum.defaultMaxNumSize = .ok n) : CScriptNum.getint n = n := by
  have hLt := natAbs_lt_of_ofVch hNum
  rw [CScriptNum.getint, if_neg (by omega), if_neg (by omega)]

theorem int64_of_lt {n : Int} (hLt : n.natAbs < 2 ^ 32) : int64 n = pure n := by
  rw [int64, defined, if_pos (by omega)]
  rfl

theorem assert_of {σ : Type} {c : Prop} [Decidable c] (h : c) : (assert c : EStateM Halt σ Unit) = pure () := if_pos h

theorem UnaryOp.apply_eq (op : UnaryOp) {bn : Int} (hLt : bn.natAbs < 2 ^ 31) : op.apply bn = pure (op.value bn) := by
  cases op with
  | add1 =>
    rw [UnaryOp.apply, assert_of (by omega), int64_of_lt (by omega)]
    rfl
  | sub1 =>
    rw [UnaryOp.apply, assert_of (by omega), int64_of_lt (by omega)]
    rfl
  | negate =>
    rw [UnaryOp.apply, assert_of (by omega), int64_of_lt (by omega)]
    rfl
  | abs =>
    rw [UnaryOp.apply, UnaryOp.value]
    split
    · rw [assert_of (by omega), int64_of_lt (by omega), show (bn.natAbs : Int) = -bn by omega]
      rfl
    · rw [show (bn.natAbs : Int) = bn by omega]
  | not =>
    rw [UnaryOp.apply, UnaryOp.value, boolNum]
    simp
  | notEqual0 =>
    rw [UnaryOp.apply, UnaryOp.value, boolNum]
    simp

theorem BinaryOp.apply_eq (op : BinaryOp) {bn1 bn2 : Int} (h1 : bn1.natAbs < 2 ^ 31) (h2 : bn2.natAbs < 2 ^ 31) :
    op.apply bn1 bn2 = pure (op.value bn1 bn2) := by
  cases op with
  | add => exact int64_of_lt (by omega)
  | sub => exact int64_of_lt (by omega)
  | min =>
    rw [BinaryOp.apply, BinaryOp.value]
    congr 1
    omega
  | max =>
    rw [BinaryOp.apply, BinaryOp.value]
    congr 1
    omega
  | boolAnd | boolOr | numEqual | numEqualVerify | numNotEqual | lessThan | greaterThan | lessThanOrEqual |
    greaterThanOrEqual => simp [BinaryOp.apply, BinaryOp.value, boolNum]

theorem scriptNum_bind {α : Type} (vch : Bytes) (fRequireMinimal : Bool) (size : Nat) (f : Int → Exec α) (m : Machine) :
    (scriptNum vch fRequireMinimal size >>= f) m =
      match CScriptNum.ofVch vch fRequireMinimal size with
      | .ok n => f n m
      | .error reason => .error (.thrown (.scriptNum reason)) m := by
  rw [scriptNum]
  cases CScriptNum.ofVch vch fRequireMinimal size <;> rfl

theorem execUnary_eq (fRequireMinimal : Bool) (op : UnaryOp) (m : Machine) : execUnary fRequireMinimal op m =
    match m.stack with
    | [] => .error (.error .invalidStackOperation) m
    | vch :: rest =>
      match CScriptNum.ofVch vch fRequireMinimal CScriptNum.defaultMaxNumSize with
      | .ok n => .ok () { m with stack := serializeNum (op.value n) :: rest }
      | .error reason => .error (.thrown (.scriptNum reason)) m := by
  obtain ⟨_ | ⟨vch, rest⟩, altstack, vfExec, code, ops, checks⟩ := m
  · rfl
  · refine (scriptNum_bind vch fRequireMinimal _ _ _).trans ?_
    dsimp only
    cases hNum : CScriptNum.ofVch vch fRequireMinimal CScriptNum.defaultMaxNumSize with
    | error reason => rfl
    | ok n =>
      dsimp only
      rw [UnaryOp.apply_eq op (natAbs_lt_of_ofVch hNum)]
      rfl

theorem execBinary_eq (fRequireMinimal : Bool) (op : BinaryOp) (m : Machine) : execBinary fRequireMinimal op m =
    match m.stack with
    | vch2 :: vch1 :: rest =>
      match CScriptNum.ofVch vch1 fRequireMinimal CScriptNum.defaultMaxNumSize with
      | .error reason => .error (.thrown (.scriptNum reason)) m
      | .ok n1 =>
        match CScriptNum.ofVch vch2 fRequireMinimal CScriptNum.defaultMaxNumSize with
        | .error reason => .error (.thrown (.scriptNum reason)) m
        | .ok n2 =>
          if op = .numEqualVerify then
            if n1 = n2 then .ok () { m with stack := rest }
            else .error (.error .numequalverify) { m with stack := serializeNum 0 :: rest }
          else .ok () { m with stack := serializeNum (op.value n1 n2) :: rest }
    | _ => .error (.error .invalidStackOperation) m := by
  obtain ⟨_ | ⟨vch2, _ | ⟨vch1, rest⟩⟩, altstack, vfExec, code, ops, checks⟩ := m
  · rfl
  · rfl
  · refine (scriptNum_bind vch1 fRequireMinimal _ _ _).trans ?_
    dsimp only
    cases hNum1 : CScriptNum.ofVch vch1 fRequireMinimal CScriptNum.defaultMaxNumSize with
    | error reason => rfl
    | ok n1 =>
      refine (scriptNum_bind vch2 fRequireMinimal _ _ _).trans ?_
      dsimp only
      cases hNum2 : CScriptNum.ofVch vch2 fRequireMinimal CScriptNum.defaultMaxNumSize with
      | error reason => rfl
      | ok n2 =>
        dsimp only
        rw [BinaryOp.apply_eq op (natAbs_lt_of_ofVch hNum1) (natAbs_lt_of_ofVch hNum2)]
        by_cases hVerify : op = .numEqualVerify
        · subst hVerify
          by_cases hEq : n1 = n2
          · rw [if_pos rfl, if_pos hEq, BinaryOp.value, if_pos hEq]
            rfl
          · rw [if_pos rfl, if_neg hEq, BinaryOp.value, if_neg hEq]
            rfl
        · rw [if_neg hVerify, if_neg hVerify]
          rfl

theorem execWithin_eq (fRequireMinimal : Bool) (m : Machine) : execWithin fRequireMinimal m =
    match m.stack with
    | vch3 :: vch2 :: vch1 :: rest =>
      match CScriptNum.ofVch vch1 fRequireMinimal CScriptNum.defaultMaxNumSize with
      | .error reason => .error (.thrown (.scriptNum reason)) m
      | .ok n1 =>
        match CScriptNum.ofVch vch2 fRequireMinimal CScriptNum.defaultMaxNumSize with
        | .error reason => .error (.thrown (.scriptNum reason)) m
        | .ok n2 =>
          match CScriptNum.ofVch vch3 fRequireMinimal CScriptNum.defaultMaxNumSize with
          | .error reason => .error (.thrown (.scriptNum reason)) m
          | .ok n3 => .ok () { m with stack := vchBool (decide (n2 ≤ n1 ∧ n1 < n3)) :: rest }
    | _ => .error (.error .invalidStackOperation) m := by
  obtain ⟨_ | ⟨vch3, _ | ⟨vch2, _ | ⟨vch1, rest⟩⟩⟩, altstack, vfExec, code, ops, checks⟩ := m
  · rfl
  · rfl
  · rfl
  · refine (scriptNum_bind vch1 fRequireMinimal _ _ _).trans ?_
    dsimp only
    cases hNum1 : CScriptNum.ofVch vch1 fRequireMinimal CScriptNum.defaultMaxNumSize with
    | error reason => rfl
    | ok n1 =>
      refine (scriptNum_bind vch2 fRequireMinimal _ _ _).trans ?_
      dsimp only
      cases hNum2 : CScriptNum.ofVch vch2 fRequireMinimal CScriptNum.defaultMaxNumSize with
      | error reason => rfl
      | ok n2 =>
        refine (scriptNum_bind vch3 fRequireMinimal _ _ _).trans ?_
        dsimp only
        cases hNum3 : CScriptNum.ofVch vch3 fRequireMinimal CScriptNum.defaultMaxNumSize with
        | error reason => rfl
        | ok n3 => rfl

theorem stackTop_of_lt {m : Machine} {i : Nat} (hLt : i < m.stack.length) :
    stackTop (i + 1) m = .ok (m.stack.getD i []) m := by
  rw [stackTop, List.getD_eq_getElem?_getD, List.getElem?_eq_getElem hLt]
  rfl

theorem eraseStack_of_le {m : Machine} {first last : Nat} (hLast : last ≤ first) (hFirst : first ≤ m.stack.length) :
    eraseStack first last m = .ok () { m with stack := m.stack.take last ++ m.stack.drop first } := by
  have hSize : stackSize m = .ok m.stack.length m := rfl
  rw [eraseStack, bind_ok hSize, defined, if_pos ⟨hLast, hFirst⟩]
  rfl

/-- The item under the number is copied or moved to the top. -/
theorem execPick_eq (fRequireMinimal roll : Bool) (m : Machine) : execPick fRequireMinimal roll m =
    match m.stack with
    | vch :: x :: rest =>
      match CScriptNum.ofVch vch fRequireMinimal CScriptNum.defaultMaxNumSize with
      | .error reason => .error (.thrown (.scriptNum reason)) m
      | .ok n =>
        if n < 0 ∨ n ≥ (x :: rest).length then .error (.error .invalidStackOperation) { m with stack := x :: rest }
        else .ok () { m with
          stack := (x :: rest).getD n.toNat [] :: if roll then (x :: rest).eraseIdx n.toNat else x :: rest }
    | _ => .error (.error .invalidStackOperation) m := by
  obtain ⟨_ | ⟨vch, _ | ⟨x, rest⟩⟩, altstack, vfExec, code, ops, checks⟩ := m
  · rfl
  · rfl
  · refine (scriptNum_bind vch fRequireMinimal _ _ _).trans ?_
    dsimp only
    cases hNum : CScriptNum.ofVch vch fRequireMinimal CScriptNum.defaultMaxNumSize with
    | error reason => rfl
    | ok n =>
      dsimp only
      rw [getint_of_ofVch hNum]
      change ((errorIf (n < 0 ∨ n ≥ (x :: rest).length) .invalidStackOperation : Exec Unit) >>= fun _ => _)
        (Machine.mk (x :: rest) altstack vfExec code ops checks) = _
      rw [errorIf]
      by_cases hRange : n < 0 ∨ n ≥ (x :: rest).length
      · rw [if_pos hRange, if_pos hRange]
        rfl
      · have hLt : n.toNat < (x :: rest).length := by omega
        rw [if_neg hRange, if_neg hRange]
        refine (bind_ok (stackTop_of_lt (m := Machine.mk (x :: rest) altstack vfExec code ops checks) hLt)).trans ?_
        cases roll with
        | false => rfl
        | true =>
          have hErase := eraseStack_of_le (m := Machine.mk (x :: rest) altstack vfExec code ops checks)
            (Nat.le_succ n.toNat) hLt
          rw [if_pos rfl, if_pos rfl, bind_ok hErase, List.eraseIdx_eq_take_drop_succ]
          rfl

/-! ## Comparing, hashing and choosing -/

theorem execEqual_eq (verify : Bool) (m : Machine) : execEqual verify m =
    match m.stack with
    | vch2 :: vch1 :: rest =>
      if verify then
        if vch1 = vch2 then .ok () { m with stack := rest }
        else .error (.error .equalverify) { m with stack := vchFalse :: rest }
      else .ok () { m with stack := vchBool (vch1 == vch2) :: rest }
    | _ => .error (.error .invalidStackOperation) m := by
  obtain ⟨_ | ⟨vch2, _ | ⟨vch1, rest⟩⟩, altstack, vfExec, code, ops, checks⟩ := m
  · rfl
  · rfl
  · cases verify with
    | false => rfl
    | true =>
      by_cases hEq : vch1 = vch2
      · have hBeq : (vch1 == vch2) = true := beq_iff_eq.mpr hEq
        dsimp only
        rw [if_pos rfl, if_pos hEq]
        change execVerifySuffix true (vch1 == vch2) _ (Machine.mk (vchBool (vch1 == vch2) :: rest) _ _ _ _ _) = _
        rw [hBeq]
        rfl
      · have hBeq : (vch1 == vch2) = false := beq_eq_false_iff_ne.mpr hEq
        dsimp only
        rw [if_pos rfl, if_neg hEq]
        change execVerifySuffix true (vch1 == vch2) _ (Machine.mk (vchBool (vch1 == vch2) :: rest) _ _ _ _ _) = _
        rw [hBeq]
        rfl

theorem execHash_eq (op : HashOp) (m : Machine) : execHash op m =
    match m.stack with
    | [] => .error (.error .invalidStackOperation) m
    | vch :: rest => .ok () { m with stack := op.apply vch :: rest } := by
  obtain ⟨_ | ⟨vch, rest⟩, altstack, vfExec, code, ops, checks⟩ := m <;> rfl

theorem execVerify_eq (m : Machine) : Env.execVerify m =
    match m.stack with
    | [] => .error (.error .invalidStackOperation) m
    | vch :: rest => if castToBool vch then .ok () { m with stack := rest } else .error (.error .verify) m := by
  obtain ⟨_ | ⟨vch, rest⟩, altstack, vfExec, code, ops, checks⟩ := m
  · rfl
  · change (if castToBool vch then popStack else _) (Machine.mk (vch :: rest) _ _ _ _ _) = _
    dsimp only
    split <;> rfl

theorem execToAltStack_eq (m : Machine) : Env.execToAltStack m =
    match m.stack with
    | [] => .error (.error .invalidStackOperation) m
    | vch :: rest => .ok () { m with stack := rest, altstack := vch :: m.altstack } := by
  obtain ⟨_ | ⟨vch, rest⟩, altstack, vfExec, code, ops, checks⟩ := m <;> rfl

/-! ## Rules for the parts of an instruction -/

/-- The ways in which a script can stop: with an error of its own, or with an exception of a script number. -/
def Halt.Expected (halt : Halt) : Prop := (∃ e, halt = .error e) ∨ ∃ reason, halt = .thrown (.scriptNum reason)

namespace Foundation.Ensures

section

variable {α σ : Type} {post : α → σ → Prop} {stop : Halt → σ → Prop} {s : σ} {f : Unit → EStateM Halt σ α}

theorem errorIf {c : Prop} [Decidable c] {e : ScriptError} (hStop : c → stop (.error e) s)
    (hRest : ¬ c → Ensures (f ()) s post stop) : Ensures (errorIf c e >>= f) s post stop := by
  rw [BitcoinGpuMiner.errorIf]
  by_cases h : c
  · rw [if_pos h]
    exact hStop h
  · rw [if_neg h]
    exact hRest h

end

variable {α : Type} {post : α → Machine → Prop} {stop : Halt → Machine → Prop} {m : Machine}

theorem stackSize {f : Nat → Exec α} (hRest : Ensures (f m.stack.length) m post stop) :
    Ensures (stackSize >>= f) m post stop := hRest

theorem get {f : Machine → Exec α} (hRest : Ensures (f m) m post stop) : Ensures (get >>= f) m post stop := hRest

theorem modify {f : Unit → Exec α} {g : Machine → Machine} (hRest : Ensures (f ()) (g m) post stop) :
    Ensures (modify g >>= f) m post stop := hRest

theorem stackTop {i : Nat} {f : Bytes → Exec α} (hLt : i < m.stack.length)
    (hRest : ∀ vch, m.stack[i]? = some vch → Ensures (f vch) m post stop) :
    Ensures (stackTop (i + 1) >>= f) m post stop := by
  have hAt := List.getElem?_eq_getElem hLt
  have hTop : Exec.stackTop (i + 1) m = .ok m.stack[i] m := by rw [Exec.stackTop, hAt]
  rw [Ensures, bind_ok hTop]
  exact hRest _ hAt

theorem popStack {f : Unit → Exec α} (hSome : 0 < m.stack.length)
    (hRest : Ensures (f ()) { m with stack := m.stack.tail } post stop) : Ensures (popStack >>= f) m post stop := by
  obtain ⟨_ | ⟨vch, rest⟩, altstack, vfExec, code, ops, checks⟩ := m
  · cases hSome
  · exact hRest

theorem scriptNum {vch : Bytes} {fRequireMinimal : Bool} {size : Nat} {f : Int → Exec α}
    (hStop : ∀ reason, CScriptNum.ofVch vch fRequireMinimal size = .error reason → stop (.thrown (.scriptNum reason)) m)
    (hRest : ∀ n, CScriptNum.ofVch vch fRequireMinimal size = .ok n → Ensures (f n) m post stop) :
    Ensures (scriptNum vch fRequireMinimal size >>= f) m post stop := by
  rw [Ensures, scriptNum_bind]
  cases hNum : CScriptNum.ofVch vch fRequireMinimal size with
  | ok n => exact hRest n hNum
  | error reason => exact hStop reason hNum

end Foundation.Ensures

end BitcoinGpuMiner
