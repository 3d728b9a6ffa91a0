import BitcoinGpuMiner.Script.Lockstep
import BitcoinGpuMiner.Script.Runs

/-! # Conditionals

`EvalScript` goes through a script once, from front to back, with a stack of conditions. Here a script is a tree in which
a conditional holds what stands inside it, and the meaning of a tree runs what is taken and skips the rest. A script
succeeds if and only if it is the text of a tree that does.
-/

namespace BitcoinGpuMiner

set_option autoImplicit false

open Exec CScript Foundation ScriptValidation

/-- An operation as the loop reads it, with the script behind it. -/
structure Operation where
  opcode : UInt8
  vchPushValue : Bytes
  pc : CScript

namespace Operation

def instruction (o : Operation) : Instruction := Instruction.ofOpcode o.opcode

/-- `OP_VERIF` and `OP_VERNOTIF`, which fail a script even where they are not executed. -/
def reserved (o : Operation) : Prop := o.opcode = 0x65 ∨ o.opcode = 0x66

instance (o : Operation) : Decidable o.reserved := inferInstanceAs (Decidable (_ ∨ _))

end Operation

/-- The operations of one level. A conditional is one piece of its level; an `OP_ELSE` belongs to the level that it
divides, and there may be any number of them. -/
inductive ScriptTree where
  | nil
  | plain (o : Operation) (hPlain : o.instruction.conditional = false) (next : ScriptTree)
  | toggle (o : Operation) (hElse : o.instruction = .opElse) (next : ScriptTree)
  | branch (start : Operation) (negated : Bool) (hIf : start.instruction = .opIf negated) (inner : ScriptTree)
      (finish : Operation) (hEndIf : finish.instruction = .opEndIf) (next : ScriptTree)

namespace ScriptTree

def flatten : ScriptTree → List Operation
  | nil => []
  | plain o _ next => o :: next.flatten
  | toggle o _ next => o :: next.flatten
  | branch start _ _ inner finish _ next => start :: (inner.flatten ++ finish :: next.flatten)

/-- No `OP_ELSE` on the level itself. -/
def Whole : ScriptTree → Prop
  | nil => True
  | plain _ _ next => next.Whole
  | toggle _ _ _ => False
  | branch _ _ _ _ _ _ next => next.Whole

/-- The conditions behind a block; each `OP_ELSE` turns the innermost one. -/
def after : ScriptTree → List Bool → List Bool
  | nil, conds => conds
  | plain _ _ next, conds => next.after conds
  | toggle _ _ next, conds => next.after (conds.modifyHead not)
  | branch _ _ _ _ _ _ next, conds => next.after conds

theorem after_cons (b : ScriptTree) (cond : Bool) (outer : List Bool) : ∃ cond', b.after (cond :: outer) = cond' :: outer := by
  induction b generalizing cond with
  | nil => exact ⟨cond, rfl⟩
  | plain _ _ next ih => exact ih cond
  | toggle _ _ next ih => exact ih (!cond)
  | branch _ _ _ _ _ _ next _ ih => exact ih cond

theorem after_of_whole {b : ScriptTree} (hWhole : b.Whole) (conds : List Bool) : b.after conds = conds := by
  induction b with
  | nil => rfl
  | plain _ _ next ih => exact ih hWhole
  | toggle _ _ next ih => exact hWhole.elim
  | branch _ _ _ _ _ _ next _ ih => exact ih hWhole

end ScriptTree

/-! ## The meaning of a tree -/

/-- A program for every operation, in order. -/
def Exec.each (p : Operation → Exec Unit) : List Operation → Exec Unit
  | [] => pure ()
  | o :: ops => do
    p o
    each p ops

theorem Exec.each_append (p : Operation → Exec Unit) (ops ops' : List Operation) :
    each p (ops ++ ops') = (do each p ops; each p ops') := by
  induction ops with
  | nil => rw [List.nil_append, each, pure_bind]
  | cons o ops ih => rw [List.cons_append, each, each, ih, bind_assoc]

namespace Env

variable (env : Env)

/-- An operation that is not executed is only counted and tested. -/
def skip (o : Operation) : Exec Unit := do
  env.screen o.opcode o.vchPushValue
  errorIf o.reserved .badOpcode
  checkSize

def perform (o : Operation) : Exec Unit := do
  env.screen o.opcode o.vchPushValue
  env.dispatch true o.opcode o.vchPushValue o.pc
  checkSize

/-- The condition of a conditional that is executed. -/
def choose (negated : Bool) (o : Operation) : Exec Bool := do
  env.screen o.opcode o.vchPushValue
  let fValue ← env.ifValue true negated
  checkSize
  pure fValue

def skipAll (ops : List Operation) : Exec Unit := each env.skip ops

/-- A block whose level is executed or not; an `OP_ELSE` changes that. -/
def runTree : ScriptTree → Bool → Exec Unit
  | .nil, _ => pure ()
  | .plain o _ next, true => do
    env.perform o
    runTree next true
  | .plain o _ next, false => do
    env.skip o
    runTree next false
  | .toggle o _ next, fExec => do
    env.skip o
    runTree next !fExec
  | .branch start negated _ inner finish _ next, true => do
    let fValue ← env.choose negated start
    runTree inner fValue
    env.skip finish
    runTree next true
  | .branch start _ _ inner finish _ next, false => do
    env.skip start
    env.skipAll inner.flatten
    env.skip finish
    runTree next false

/-! ## The loop on a list of operations -/

def stepOp (o : Operation) : Exec Unit := env.step o.opcode o.vchPushValue o.pc

def runOps (ops : List Operation) : Exec Unit := each env.stepOp ops

end Env

/-- The operations of a script. -/
inductive ReadsAs : CScript → List Operation → Prop
  | nil : ReadsAs [] []
  | cons {pc rest : CScript} {opcode : UInt8} {vchPushValue : Bytes} {ops : List Operation} :
      getOp pc = .ok (opcode, vchPushValue, rest) → ReadsAs rest ops → ReadsAs pc (⟨opcode, vchPushValue, rest⟩ :: ops)

theorem Env.evalLoop_ok_iff (env : Env) {fuel : Nat} {pc : CScript} {m m' : Machine} (hFuel : pc.length ≤ fuel) :
    env.evalLoop fuel pc m = .ok () m' ↔ ∃ ops, ReadsAs pc ops ∧ env.runOps ops m = .ok () m' := by
  induction fuel generalizing pc m with
  | zero =>
    obtain rfl := List.length_eq_zero_iff.mp (Nat.le_zero.mp hFuel)
    constructor
    · intro hRun
      exact ⟨[], .nil, hRun⟩
    · rintro ⟨_, ⟨⟩ | ⟨hOp, _⟩, hRun⟩
      · exact hRun
      · cases hOp
  | succ fuel ih =>
    rcases pc with _ | ⟨first, pc⟩
    · constructor
      · intro hRun
        exact ⟨[], .nil, hRun⟩
      · rintro ⟨_, ⟨⟩ | ⟨hOp, _⟩, hRun⟩
        · exact hRun
        · cases hOp
    · rw [evalLoop, if_neg (by simp)]
      cases hOp : getOp (first :: pc) with
      | error _ =>
        constructor
        · intro hRun
          cases hRun
        · rintro ⟨_, ⟨⟩ | ⟨hOp', _⟩, hRun⟩
          rw [hOp] at hOp'
          cases hOp'
      | ok found =>
        obtain ⟨opcode, vchPushValue, rest⟩ := found
        have hShort := (getOp_suffix hOp).2
        have hRest : rest.length ≤ fuel := by omega
        constructor
        · intro hRun
          obtain ⟨_, m1, hStep, hThen⟩ := exists_of_bind_ok hRun
          obtain ⟨ops, hReads, hOps⟩ := (ih hRest).mp hThen
          refine ⟨_, .cons hOp hReads, ?_⟩
          rw [runOps, each, bind_ok (show env.stepOp ⟨opcode, vchPushValue, rest⟩ m = _ from hStep)]
          exact hOps
        · rintro ⟨_, ⟨⟩ | ⟨hOp', hReads⟩, hRun⟩
          cases hOp.symm.trans hOp'
          rw [runOps, each] at hRun
          obtain ⟨_, m1, hStep, hThen⟩ := exists_of_bind_ok hRun
          dsimp only
          rw [bind_ok (show env.step _ _ _ m = _ from hStep)]
          exact (ih hRest).mpr ⟨_, hReads, hThen⟩

/-! ## Both runs in step

The machine of a tree has no conditions of its own; that of the loop has the same items and counts, and the conditions
that are open at that place. -/

def Machine.withConds (conds : List Bool) (m : Machine) : Machine := { m with vfExec := conds }

/-- `p` with the conditions `conds` does what `p'` does, and ends with `conds'`. -/
def Mirrors {α : Type} (conds conds' : List Bool) (p p' : Exec α) : Prop :=
  ∀ m : Machine, outcome p (m.withConds conds) = (outcome p' m).map fun r => (r.1, r.2.withConds conds')

namespace Mirrors

variable {α β : Type} {conds conds₁ conds' : List Bool} {p p' : Exec α}

theorem pure (a : α) : Mirrors conds conds (Pure.pure a : Exec α) (Pure.pure a) := fun _ => rfl

theorem bind {f f' : α → Exec β} (hFirst : Mirrors conds conds₁ p p') (hRest : ∀ a, Mirrors conds₁ conds' (f a) (f' a)) :
    Mirrors conds conds' (p >>= f) (p' >>= f') := by
  intro m
  rw [outcome_bind, outcome_bind, hFirst m, Option.bind_map, Option.map_bind]
  congr 1
  funext r
  exact hRest r.1 r.2

end Mirrors

/-- How two machines that differ in their conditions only belong together. -/
def Hidden.conds (conds conds' : List Bool) : Hidden :=
  ⟨fun vfExec calls vfExec' calls' => vfExec = conds ∧ vfExec' = conds' ∧ calls = calls', fun hRel =>
    ⟨hRel.1, hRel.2.1, congrArg Nat.succ hRel.2.2⟩⟩

/-- Programs without conditionals do the same under all conditions. -/
theorem mirrors_of_allows {α : Type} {p : Exec α} (hAllows : ∀ H, Allows H p p) (conds : List Bool) :
    Mirrors conds conds p p := by
  intro m
  cases hRun : p m with
  | ok a m' =>
    obtain ⟨_, hRun', _, _, ⟨-, rfl, rfl⟩, rfl⟩ :=
      hAllows (.conds m.vfExec conds) m (m.withConds conds) ⟨_, _, ⟨rfl, rfl, rfl⟩, rfl⟩ a m' hRun
    rw [outcome_eq_some_iff.mpr hRun, outcome_eq_some_iff.mpr hRun']
    rfl
  | error halt m' =>
    cases hRun' : p (m.withConds conds) with
    | error halt' m'' => rw [outcome, outcome, hRun, hRun', Option.map_none]
    | ok a m'' =>
      obtain ⟨_, hOk, -⟩ := hAllows (.conds conds m.vfExec) (m.withConds conds) m ⟨_, _, ⟨rfl, rfl, rfl⟩, rfl⟩ a m'' hRun'
      rw [hRun] at hOk
      cases hOk

namespace Env

variable (env : Env) {o : Operation}

theorem fewerFlags_self : FewerFlags env.flags env.flags := UInt32.and_self

theorem mirrors_screen (opcode : UInt8) (vchPushValue : Bytes) (conds : List Bool) :
    Mirrors conds conds (env.screen opcode vchPushValue) (env.screen opcode vchPushValue) :=
  mirrors_of_allows (fun _ => env.allows_screen env.fewerFlags_self _ _) conds

theorem allows_checkSize (H : Hidden) : Allows H checkSize checkSize := .get fun _ _ _ _ => .errorIf _ _

theorem mirrors_checkSize (conds : List Bool) : Mirrors conds conds checkSize checkSize :=
  mirrors_of_allows allows_checkSize conds

theorem mirrors_ifValue (fExec negated : Bool) (conds : List Bool) :
    Mirrors conds conds (env.ifValue fExec negated) (env.ifValue fExec negated) :=
  mirrors_of_allows (fun _ => env.allows_ifValue env.fewerFlags_self _ _) conds

/-- The loop takes from the conditions only whether the operation is executed. -/
theorem outcome_stepOp (o : Operation) (conds : List Bool) (m : Machine) : outcome (env.stepOp o) (m.withConds conds) =
    outcome (do
      env.screen o.opcode o.vchPushValue
      env.dispatch (conds.all id) o.opcode o.vchPushValue o.pc
      checkSize) (m.withConds conds) := rfl

theorem mirrors_perform (hPlain : o.instruction.conditional = false) {conds : List Bool} (hExec : conds.all id = true) :
    Mirrors conds conds (env.stepOp o) (env.perform o) := by
  intro m
  rw [outcome_stepOp, hExec]
  exact Mirrors.bind (env.mirrors_screen _ _ _) (fun _ => .bind (mirrors_of_allows (fun _ =>
    .ite (env.allows_execPush env.fewerFlags_self _ _) (.ite (env.allows_exec env.fewerFlags_self _ _ hPlain) (.pure ())))
    _) fun _ => mirrors_checkSize _) m

/-- Inside the range of the conditionals stand the conditionals and the reserved operations. -/
theorem inIfRange_iff (o : Operation) : inIfRange o.opcode ↔ o.instruction.conditional = true ∨ o.reserved := by
  constructor
  · intro hRange
    have hAll : ∀ opcode : UInt8, inIfRange opcode →
        (Instruction.ofOpcode opcode).conditional = true ∨ opcode = 0x65 ∨ opcode = 0x66 := by
      apply forall_uint8
      decide +kernel
    exact hAll o.opcode hRange
  · rintro (hCond | hReserved | hReserved)
    · exact Instruction.forall_ofOpcode (P := fun opcode i => i.conditional = true → inIfRange opcode)
        (fun _ _ hNot => by cases hNot) (fun _ hNot => by cases hNot) (by decide) o.opcode hCond
    · rw [hReserved]
      decide
    · rw [hReserved]
      decide

theorem not_reserved (hCond : o.instruction.conditional = true) : ¬ o.reserved := by
  rintro (hReserved | hReserved) <;> rw [Operation.instruction, hReserved] at hCond <;> revert hCond <;> decide

theorem dispatch_conditional (hCond : o.instruction.conditional = true) (fExec : Bool) :
    env.dispatch fExec o.opcode o.vchPushValue o.pc = env.exec fExec o.pc o.instruction := by
  have hRange := (inIfRange_iff o).mpr (.inl hCond)
  have hHigh : ¬ o.opcode ≤ OP_PUSHDATA4 := fun hLow => absurd (UInt8.le_trans hRange.1 hLow) (by decide)
  rw [dispatch, if_neg fun hPush => hHigh hPush.2, if_pos (.inr hRange), Operation.instruction]

theorem dispatch_skipped (hPlain : o.instruction.conditional = false) :
    env.dispatch false o.opcode o.vchPushValue o.pc = errorIf o.reserved .badOpcode := by
  have hFalse : ¬ (false = true ∧ o.opcode ≤ OP_PUSHDATA4) := fun hPush => Bool.false_ne_true hPush.1
  rw [dispatch, if_neg hFalse, errorIf]
  by_cases hReserved : o.reserved
  · have hUnknown : Instruction.ofOpcode o.opcode = .unknown := by
      rcases hReserved with h | h <;> rw [h] <;> decide
    rw [if_pos (.inr ((inIfRange_iff o).mpr (.inr hReserved))), if_pos hReserved, hUnknown, exec]
  · have hNot : ¬ (false = true ∨ (OP_IF ≤ o.opcode ∧ o.opcode ≤ OP_ENDIF)) := by
      rintro (hExec | hRange)
      · cases hExec
      · rcases (inIfRange_iff o).mp hRange with hCond | hRes
        · rw [hPlain] at hCond
          cases hCond
        · exact hReserved hRes
    rw [if_neg hNot, if_neg hReserved]

theorem mirrors_skip (hPlain : o.instruction.conditional = false) {conds : List Bool} (hOff : conds.all id = false) :
    Mirrors conds conds (env.stepOp o) (env.skip o) := by
  intro m
  rw [outcome_stepOp, hOff, env.dispatch_skipped hPlain]
  exact Mirrors.bind (env.mirrors_screen _ _ _) (fun _ => .bind (mirrors_of_allows (fun _ => .errorIf _ _) _) fun _ =>
    mirrors_checkSize _) m

/-- A conditional operation that changes the conditions and nothing else. -/
theorem mirrors_change {conds conds' : List Bool} (hCond : o.instruction.conditional = true)
    (hChange : ∀ m : Machine, env.exec (conds.all id) o.pc o.instruction (m.withConds conds) = .ok () (m.withConds conds')) :
    Mirrors conds conds' (env.stepOp o) (env.skip o) := by
  intro m
  rw [outcome_stepOp, env.dispatch_conditional hCond, skip, errorIf, if_neg (not_reserved hCond)]
  have hExec : Mirrors conds conds' (env.exec (conds.all id) o.pc o.instruction) (Pure.pure ()) := by
    intro m
    rw [outcome_eq_some_iff.mpr (hChange m)]
    rfl
  exact Mirrors.bind (env.mirrors_screen _ _ _) (fun _ => .bind hExec fun _ => mirrors_checkSize _) m

theorem mirrors_else (hElse : o.instruction = .opElse) (cond : Bool) (outer : List Bool) :
    Mirrors (cond :: outer) ((!cond) :: outer) (env.stepOp o) (env.skip o) :=
  env.mirrors_change (by rw [hElse]; rfl) fun m => by rw [hElse]; rfl

theorem mirrors_endIf (hEndIf : o.instruction = .opEndIf) (cond : Bool) (outer : List Bool) :
    Mirrors (cond :: outer) outer (env.stepOp o) (env.skip o) :=
  env.mirrors_change (by rw [hEndIf]; rfl) fun m => by rw [hEndIf]; rfl

/-- A conditional that is not executed opens a condition that is not met. -/
theorem mirrors_if_skipped {negated : Bool} (hIf : o.instruction = .opIf negated) {conds : List Bool}
    (hOff : conds.all id = false) : Mirrors conds (false :: conds) (env.stepOp o) (env.skip o) :=
  env.mirrors_change (by rw [hIf]; rfl) fun m => by rw [hIf, hOff]; rfl

/-- A conditional that is executed opens the condition it has chosen. -/
theorem outcome_if {negated : Bool} (hIf : o.instruction = .opIf negated) {conds : List Bool} (hExec : conds.all id = true)
    (m : Machine) : outcome (env.stepOp o) (m.withConds conds) =
      (outcome (env.choose negated o) m).map fun r => ((), r.2.withConds (r.1 :: conds)) := by
  rw [outcome_stepOp, env.dispatch_conditional (by rw [hIf]; rfl), hIf, hExec, choose, outcome_bind, outcome_bind,
    env.mirrors_screen _ _ _ m, Option.bind_map, Option.map_bind]
  congr 1
  funext r
  change outcome ((env.ifValue true negated >>= fun fValue => modify fun m => { m with vfExec := fValue :: m.vfExec }) >>=
    fun _ => checkSize) (r.2.withConds conds) = _
  rw [Function.comp_apply, bind_assoc, outcome_bind, outcome_bind, env.mirrors_ifValue _ _ _ r.2, Option.bind_map,
    Option.map_bind]
  congr 1
  funext r'
  change outcome checkSize (r'.2.withConds (r'.1 :: conds)) = _
  rw [Function.comp_apply, mirrors_checkSize _ r'.2, outcome_bind, Option.map_bind]
  cases outcome checkSize r'.2 <;> rfl

/-! ## Trees -/

/-- Inside of what is not executed nothing is. -/
theorem mirrors_skipAll (tree : ScriptTree) (cond : Bool) {outer : List Bool} (hOff : outer.all id = false) :
    Mirrors (cond :: outer) (tree.after (cond :: outer)) (env.runOps tree.flatten) (env.skipAll tree.flatten) := by
  have hAll : ∀ cond, (cond :: outer).all id = false := fun cond => by rw [List.all_cons, hOff, Bool.and_false]
  induction tree generalizing cond outer with
  | nil => exact .pure ()
  | plain o hPlain next ih => exact .bind (env.mirrors_skip hPlain (hAll cond)) fun _ => ih cond hOff hAll
  | toggle o hElse next ih => exact .bind (env.mirrors_else hElse cond outer) fun _ => ih (!cond) hOff hAll
  | branch start negated hIf inner finish hEndIf next ihInner ihNext =>
    obtain ⟨cond', hAfter⟩ := inner.after_cons false (cond :: outer)
    have hInner := ihInner false (hAll cond) fun cond' => by rw [List.all_cons, hAll, Bool.and_false]
    rw [hAfter] at hInner
    rw [runOps, skipAll, ScriptTree.flatten, each, each, each_append, each_append]
    exact .bind (env.mirrors_if_skipped hIf (hAll cond)) fun _ => .bind hInner fun _ =>
      .bind (env.mirrors_endIf hEndIf cond' _) fun _ => ihNext cond hOff hAll

/-- A tree under open conditions: everything around its level is executed, and an `OP_ELSE` on its level has a condition
to turn. -/
theorem mirrors_runTree (tree : ScriptTree) {conds : List Bool}
    (hLevel : tree.Whole ∧ conds = [] ∨ ∃ cond outer, conds = cond :: outer ∧ outer.all id = true) :
    Mirrors conds (tree.after conds) (env.runOps tree.flatten) (env.runTree tree (conds.all id)) := by
  induction tree generalizing conds with
  | nil => exact .pure ()
  | plain o hPlain next ih =>
    cases hExec : conds.all id with
    | true =>
      have hNext := ih hLevel
      rw [hExec] at hNext
      exact .bind (env.mirrors_perform hPlain hExec) fun _ => hNext
    | false =>
      have hNext := ih hLevel
      rw [hExec] at hNext
      exact .bind (env.mirrors_skip hPlain hExec) fun _ => hNext
  | toggle o hElse next ih =>
    rcases hLevel with ⟨hWhole, -⟩ | ⟨cond, outer, rfl, hOuter⟩
    · exact hWhole.elim
    · have hNext := ih (.inr ⟨!cond, outer, rfl, hOuter⟩)
      rw [List.all_cons, hOuter, Bool.and_true] at hNext ⊢
      exact .bind (env.mirrors_else hElse cond outer) fun _ => hNext
  | branch start negated hIf inner finish hEndIf next ihInner ihNext =>
    have hNext := ihNext hLevel
    rw [runOps, ScriptTree.flatten, each, each_append]
    cases hExec : conds.all id with
    | true =>
      rw [hExec] at hNext
      intro m
      rw [outcome_bind, env.outcome_if hIf hExec m, Option.bind_map, runTree, outcome_bind, Option.map_bind]
      congr 1
      funext r
      obtain ⟨cond', hAfter⟩ := inner.after_cons r.1 conds
      have hInner := ihInner (.inr ⟨r.1, conds, rfl, hExec⟩)
      rw [hAfter, List.all_cons, hExec, Bool.and_true] at hInner
      exact Mirrors.bind hInner (fun _ => .bind (env.mirrors_endIf hEndIf cond' conds) fun _ => hNext) r.2
    | false =>
      rw [hExec] at hNext
      obtain ⟨cond', hAfter⟩ := inner.after_cons false conds
      have hInner := env.mirrors_skipAll inner false hExec
      rw [hAfter] at hInner
      exact .bind (env.mirrors_if_skipped hIf hExec) fun _ => .bind hInner fun _ =>
        .bind (env.mirrors_endIf hEndIf cond' conds) fun _ => hNext

end Env

/-! ## Only the texts of trees close all conditions -/

/-- The rest of a script that closes `depth` conditions. -/
def Closes : Nat → List Operation → Prop
  | 0, ops => ∃ tree : ScriptTree, tree.Whole ∧ ops = tree.flatten
  | depth + 1, ops => ∃ (tree : ScriptTree) (finish : Operation) (rest : List Operation),
      finish.instruction = .opEndIf ∧ ops = tree.flatten ++ finish :: rest ∧ Closes depth rest

namespace Closes

variable {depth : Nat} {o : Operation} {ops : List Operation}

theorem plain (hPlain : o.instruction.conditional = false) (hCloses : Closes depth ops) : Closes depth (o :: ops) := by
  cases depth with
  | zero =>
    obtain ⟨tree, hWhole, rfl⟩ := hCloses
    exact ⟨.plain o hPlain tree, hWhole, rfl⟩
  | succ depth =>
    obtain ⟨tree, finish, rest, hEndIf, rfl, hRest⟩ := hCloses
    exact ⟨.plain o hPlain tree, finish, rest, hEndIf, rfl, hRest⟩

theorem opElse (hElse : o.instruction = .opElse) (hCloses : Closes (depth + 1) ops) : Closes (depth + 1) (o :: ops) := by
  obtain ⟨tree, finish, rest, hEndIf, rfl, hRest⟩ := hCloses
  exact ⟨.toggle o hElse tree, finish, rest, hEndIf, rfl, hRest⟩

theorem opEndIf (hEndIf : o.instruction = .opEndIf) (hCloses : Closes depth ops) : Closes (depth + 1) (o :: ops) :=
  ⟨.nil, o, ops, hEndIf, rfl, hCloses⟩

theorem opIf {negated : Bool} (hIf : o.instruction = .opIf negated) (hCloses : Closes (depth + 1) ops) :
    Closes depth (o :: ops) := by
  obtain ⟨inner, finish, rest, hEndIf, rfl, hRest⟩ := hCloses
  cases depth with
  | zero =>
    obtain ⟨next, hWhole, rfl⟩ := hRest
    exact ⟨.branch o negated hIf inner finish hEndIf next, hWhole, rfl⟩
  | succ depth =>
    obtain ⟨next, finish', rest', hEndIf', rfl, hRest'⟩ := hRest
    refine ⟨.branch o negated hIf inner finish hEndIf next, finish', rest', hEndIf', ?_, hRest'⟩
    simp only [ScriptTree.flatten, List.cons_append, List.append_assoc]

end Closes

theorem Mirrors.conds_eq {α : Type} {conds conds' : List Bool} {p p' : Exec α} (hMirrors : Mirrors conds conds' p p')
    {m m' : Machine} {a : α} (hConds : m.vfExec = conds) (hRun : p m = .ok a m') : m'.vfExec = conds' := by
  have hOutcome := hMirrors m
  rw [← hConds, show m.withConds m.vfExec = m from rfl, outcome_eq_some_iff.mpr hRun] at hOutcome
  obtain ⟨r, -, hEq⟩ := Option.map_eq_some_iff.mp hOutcome.symm
  cases hEq
  rfl

namespace Env

variable (env : Env)

theorem done_of_conditional {o : Operation} {m m' : Machine} (hCond : o.instruction.conditional = true)
    (hStep : env.stepOp o m = .ok () m') :
    env.Done (m.vfExec.all id) o.pc (counted o.opcode m) o.instruction m' := by
  have hRange := (inIfRange_iff o).mpr (.inl hCond)
  have hDispatched := ((env.step_ensures o.opcode o.vchPushValue o.pc m).ok hStep).1.dispatched
  cases hDispatched with
  | pushed _ hLow => exact absurd (UInt8.le_trans hRange.1 hLow) (by decide)
  | executed _ _ hDone => exact hDone
  | skipped _ hNot => exact absurd hRange hNot

theorem closes_of_runOps {ops : List Operation} {m m' : Machine} (hRun : env.runOps ops m = .ok () m')
    (hClosed : m'.vfExec = []) : Closes m.vfExec.length ops := by
  induction ops generalizing m with
  | nil =>
    cases hRun
    rw [hClosed]
    exact ⟨.nil, trivial, rfl⟩
  | cons o ops ih =>
    obtain ⟨_, m1, hStep, hThen⟩ := exists_of_bind_ok hRun
    have hRest := ih hThen
    cases hCond : o.instruction.conditional with
    | false =>
      have hKept : m1.vfExec = m.vfExec := by
        cases hExec : m.vfExec.all id with
        | true => exact (env.mirrors_perform hCond hExec).conds_eq rfl hStep
        | false => exact (env.mirrors_skip hCond hExec).conds_eq rfl hStep
      rw [hKept] at hRest
      exact .plain hCond hRest
    | true =>
      have hDone := env.done_of_conditional hCond hStep
      cases hInstruction : o.instruction with
      | opIf negated =>
        rw [hInstruction] at hDone
        cases hDone with
        | quiet hSpecial => cases hSpecial
        | skippedIf => exact .opIf hInstruction hRest
        | takenIf => exact .opIf hInstruction hRest
      | opElse =>
        rw [hInstruction] at hDone
        cases hDone with
        | quiet hSpecial => cases hSpecial
        | toggled hConds =>
          rw [show m.vfExec = _ from hConds]
          exact .opElse hInstruction hRest
      | opEndIf =>
        rw [hInstruction] at hDone
        cases hDone with
        | quiet hSpecial => cases hSpecial
        | closed hConds =>
          rw [show m.vfExec = _ from hConds]
          exact .opEndIf hInstruction hRest
      | _ =>
        rw [hInstruction] at hCond
        cases hCond

end Env

theorem evalScript_ok_iff (env : Env) {stack stack' : List Bytes} {script : CScript} {checks checks' : Nat} :
    evalScript env stack script checks = .ok stack' checks' ↔
      script.length ≤ maxScriptSize ∧ ∃ tree : ScriptTree, tree.Whole ∧ ReadsAs script tree.flatten ∧
        ∃ m', env.runTree tree true (Machine.start stack script checks) = .ok () m' ∧ m'.stack = stack' ∧
          m'.sigChecks = checks' := by
  have hStart : (Machine.start stack script checks).withConds [] = Machine.start stack script checks := rfl
  rw [env.evalScript_eq_ok_iff]
  apply and_congr_right
  intro _
  constructor
  · rintro ⟨m, hLoop, hConds, hStack, hChecks⟩
    obtain ⟨ops, hReads, hOps⟩ := (env.evalLoop_ok_iff (Nat.le_refl _)).mp hLoop
    obtain ⟨tree, hWhole, rfl⟩ := env.closes_of_runOps hOps hConds
    have hMirror := env.mirrors_runTree tree (.inl ⟨hWhole, rfl⟩) (Machine.start stack script checks)
    rw [hStart, outcome_eq_some_iff.mpr hOps] at hMirror
    obtain ⟨⟨_, m'⟩, hTree, hEq⟩ := Option.map_eq_some_iff.mp hMirror.symm
    cases hEq
    exact ⟨tree, hWhole, hReads, m', outcome_eq_some_iff.mp hTree, hStack, hChecks⟩
  · rintro ⟨tree, hWhole, hReads, m', hTree, hStack, hChecks⟩
    have hMirror := env.mirrors_runTree tree (.inl ⟨hWhole, rfl⟩) (Machine.start stack script checks)
    rw [List.all_nil, outcome_eq_some_iff.mpr hTree, hStart, Option.map_some, tree.after_of_whole hWhole,
      outcome_eq_some_iff] at hMirror
    exact ⟨_, (env.evalLoop_ok_iff (Nat.le_refl _)).mpr ⟨_, hReads, hMirror⟩, rfl, hStack, hChecks⟩

theorem Env.skipAll_eq (env : Env) {ops : List Operation} {m m' : Machine} (hRun : env.skipAll ops m = .ok () m') :
    m' = { m with nOpCount := m.nOpCount + ops.countP fun o => o.opcode > OP_16 } := by
  induction ops generalizing m with
  | nil =>
    cases hRun
    rfl
  | cons o ops ih =>
    obtain ⟨_, m1, hSkip, hThen⟩ := exists_of_bind_ok hRun
    obtain ⟨_, m2, hScreen, hTests⟩ := exists_of_bind_ok hSkip
    obtain ⟨rfl, -⟩ := (env.screen_ensures o.opcode o.vchPushValue m).ok hScreen
    have hLooks : Looks (do errorIf o.reserved .badOpcode; checkSize : Exec Unit) :=
      .bind (.static (.errorIf _ _)) fun _ => .bind (fun s a s' hRun => by cases hRun; rfl) fun _ => .static (.errorIf _ _)
    rw [hLooks _ _ _ hTests] at hThen
    rw [ih hThen, counted, List.countP_cons]
    simp only [decide_eq_true_eq, Machine.mk.injEq, true_and, and_true]
    omega

/-- `EvalScript` succeeds with a stack if and only if the script is not too long, is the text of a tree in which every
conditional is closed, and the meaning of that tree leaves the stack. What the tree does not take is counted and nothing
else. -/
theorem evalScript_runs_the_tree (env : Env) :
    (∀ stack script checks stack' checks', evalScript env stack script checks = .ok stack' checks' ↔
      script.length ≤ maxScriptSize ∧ ∃ tree : ScriptTree, tree.Whole ∧ ReadsAs script tree.flatten ∧
        ∃ m', env.runTree tree true (Machine.start stack script checks) = .ok () m' ∧ m'.stack = stack' ∧
          m'.sigChecks = checks') ∧
      ∀ (ops : List Operation) (m m' : Machine), env.skipAll ops m = .ok () m' →
        m' = { m with nOpCount := m.nOpCount + ops.countP fun o => o.opcode > OP_16 } :=
  ⟨fun _ _ _ _ _ => evalScript_ok_iff env, fun _ _ _ hRun => env.skipAll_eq hRun⟩

end BitcoinGpuMiner
