import BitcoinGpuMiner.Script.Lockstep
import BitcoinGpuMiner.Script.Verify

/-! # Verification flags are soft forks

Every flag only takes away: a script that succeeds under some flags succeeds under fewer of them, with the same stack.
The two runs go through the same machines but for the number of calls of the checker, which is left open because the
stages of `VerifyScript` that a flag switches on are counted too.
-/

namespace BitcoinGpuMiner

set_option autoImplicit false

open Exec CScript Foundation ScriptValidation

/-- The same conditions are open, and any calls have been made. -/
def Hidden.anyCalls : Hidden := ⟨fun vfExec _ vfExec' _ => vfExec = vfExec', id⟩

theorem sameRun_anyCalls {s t : Machine} : SameRun .anyCalls s t ↔ ∃ calls, t = { s with sigChecks := calls } := by
  constructor
  · rintro ⟨_, calls, rfl, rfl⟩
    exact ⟨calls, rfl⟩
  · rintro ⟨calls, rfl⟩
    exact ⟨_, calls, rfl, rfl⟩

namespace Env

theorem allows_execElse : Allows .anyCalls execElse execElse := by
  rintro ⟨stack, altstack, _ | ⟨fValue, rest⟩, code, ops, checks⟩ _ ⟨_, calls, rfl, rfl⟩ a s' hRun
  · cases hRun
  · cases hRun
    exact ⟨_, rfl, _, calls, rfl, rfl⟩

theorem allows_execEndIf : Allows .anyCalls execEndIf execEndIf := by
  rintro ⟨stack, altstack, _ | ⟨fValue, rest⟩, code, ops, checks⟩ _ ⟨_, calls, rfl, rfl⟩ a s' hRun
  · cases hRun
  · cases hRun
    exact ⟨_, rfl, _, calls, rfl, rfl⟩

variable (env : Env) {flags' : UInt32} (hFewer : FewerFlags flags' env.flags)

include hFewer

theorem allows_execIf (fExec negated : Bool) :
    Allows .anyCalls (env.execIf fExec negated) ((env.withFlags flags').execIf fExec negated) := by
  refine .bind (env.allows_ifValue hFewer fExec negated) fun _ => ?_
  rintro s _ ⟨_, calls, rfl, rfl⟩ a s' hRun
  cases hRun
  exact ⟨_, rfl, _, calls, rfl, rfl⟩

theorem allows_exec_any (fExec : Bool) (pc : CScript) (i : Instruction) :
    Allows .anyCalls (env.exec fExec pc i) ((env.withFlags flags').exec fExec pc i) := by
  cases hPlain : i.conditional with
  | false => exact env.allows_exec hFewer fExec pc hPlain
  | true =>
    cases i with
    | opIf negated => exact env.allows_execIf hFewer fExec negated
    | opElse => exact allows_execElse
    | opEndIf => exact allows_execEndIf
    | _ => cases hPlain

theorem allows_step (opcode : UInt8) (vchPushValue : Bytes) (pc : CScript) :
    Allows .anyCalls (env.step opcode vchPushValue pc) ((env.withFlags flags').step opcode vchPushValue pc) := by
  refine .get fun s _ _ hSame => ?_
  cases hSame
  exact .bind (env.allows_screen hFewer _ _) fun _ =>
    .bind (.ite (env.allows_execPush hFewer _ _) (.ite (env.allows_exec_any hFewer _ _ _) (.pure ()))) fun _ =>
    .get fun _ _ _ _ => .errorIf _ _

theorem allows_evalLoop (fuel : Nat) (pc : CScript) :
    Allows .anyCalls (env.evalLoop fuel pc) ((env.withFlags flags').evalLoop fuel pc) := by
  induction fuel generalizing pc with
  | zero => exact .pure ()
  | succ fuel ih =>
    refine .ite (.pure ()) ?_
    cases getOp pc with
    | error _ => exact .throw _ _
    | ok found => exact .bind (env.allows_step hFewer _ _ _) fun _ => ih _

end Env

/-! ## The stages of `VerifyScript` -/

/-- `q` succeeds with the values with which `p` does, wherever the counts start. -/
def Verify.Allows {α : Type} (p q : Verify α) : Prop :=
  ∀ checks checks', Tracks (fun _ _ => True) p checks q checks'

namespace Verify.Allows

variable {α β : Type} {p q : Verify α}

theorem pure (a : α) : Allows (Pure.pure a : Verify α) (Pure.pure a) := fun _ _ => .pure a trivial

theorem throw (halt : Halt) (q : Verify α) : Allows (MonadExcept.throw halt) q := fun _ _ => .throw halt

theorem bind {f g : α → Verify β} (hFirst : Allows p q) (hRest : ∀ a, Allows (f a) (g a)) :
    Allows (p >>= f) (q >>= g) := fun checks checks' => .bind (hFirst checks checks') fun a s t _ => hRest a s t

theorem ite {c : Prop} [Decidable c] {p' q' : Verify α} (hThen : Allows p q) (hElse : Allows p' q') :
    Allows (if c then p else p') (if c then q else q') := fun checks checks' =>
  .ite (fun _ => hThen checks checks') fun _ => hElse checks checks'

theorem skip (p : Verify Unit) : Allows p (Pure.pure ()) := fun _ checks' _ _ _ => ⟨checks', rfl, trivial⟩

theorem errorIf (c : Prop) [Decidable c] (e : ScriptError) : Allows (errorIf c e) (errorIf c e) :=
  ite (throw _ _) (pure ())

theorem assert (c : Prop) [Decidable c] : Allows (assert c) (assert c) := ite (pure ()) (throw _ _)

theorem onFlag {flags flags' : UInt32} (hFewer : FewerFlags flags' flags) (flag : UInt32) {p q : Verify Unit}
    (hAllows : hasFlag flags' flag = true → Allows p q) : Allows (onFlag flags flag p) (onFlag flags' flag q) := by
  rw [BitcoinGpuMiner.onFlag, BitcoinGpuMiner.onFlag]
  by_cases hOn : hasFlag flags' flag = true
  · rw [if_pos hOn, if_pos (hFewer.hasFlag hOn)]
    exact hAllows hOn
  · rw [if_neg hOn]
    exact skip _

end Verify.Allows

section Verify

variable {flags flags' : UInt32} (hFewer : FewerFlags flags' flags) (checker : BaseSignatureChecker)
  (witness : List Bytes)

open Verify (Allows)

include hFewer

theorem allows_evalScript (sigversion : SigVersion) (stack : List Bytes) (script : CScript) :
    Allows (evalScript ⟨flags, checker, sigversion⟩ stack script) (evalScript ⟨flags', checker, sigversion⟩ stack script) := by
  intro checks checks' stack' last hRun
  obtain ⟨hSize, m, hLoop, hConds, hStack, -⟩ := (Env.evalScript_eq_ok_iff _).mp hRun
  obtain ⟨m', hLoop', hSame⟩ := Env.allows_evalLoop ⟨flags, checker, sigversion⟩ hFewer script.length script
    (Machine.start stack script checks) (Machine.start stack script checks') (sameRun_anyCalls.mpr ⟨checks', rfl⟩)
    () m hLoop
  obtain ⟨calls, rfl⟩ := sameRun_anyCalls.mp hSame
  exact ⟨calls, (Env.evalScript_eq_ok_iff _).mpr ⟨hSize, _, hLoop', hConds, hStack, rfl⟩, trivial⟩

theorem allows_executeWitnessScript (stack : List Bytes) (scriptPubKey : CScript) :
    Allows (executeWitnessScript flags checker stack scriptPubKey) (executeWitnessScript flags' checker stack scriptPubKey) :=
  .bind (.errorIf _ _) fun _ => .bind (allows_evalScript hFewer _ _ _ _) fun _ => .bind (.errorIf _ _) fun _ => .errorIf _ _

theorem allows_verifyWitnessProgram (witversion : Nat) (program : Bytes) :
    Allows (verifyWitnessProgram flags checker witness witversion program)
      (verifyWitnessProgram flags' checker witness witversion program) := by
  refine .ite (.ite ?_ (.ite (.bind (.errorIf _ _) fun _ => allows_executeWitnessScript hFewer _ _ _) (.throw _ _)))
    (.onFlag hFewer _ fun _ => .throw _ _)
  cases witness.getLast? with
  | none => exact .throw _ _
  | some scriptPubKey => exact .bind (.errorIf _ _) fun _ => allows_executeWitnessScript hFewer _ _ _

omit hFewer in
theorem allows_requireTrue (stack : List Bytes) : Allows (requireTrue stack) (requireTrue stack) :=
  .bind (.errorIf _ _) fun _ => .errorIf _ _

/-- With `WITNESS` in both the stages agree on the value. -/
theorem allows_verifyWitnessOf (hWitness : hasFlag flags' verifyWitness = true) (script : CScript) (malleated : Prop)
    [Decidable malleated] (e : ScriptError) (stack : List Bytes) :
    Allows (verifyWitnessOf flags checker witness script malleated e stack)
      (verifyWitnessOf flags' checker witness script malleated e stack) := by
  rw [verifyWitnessOf, verifyWitnessOf, if_pos hWitness, if_pos (hFewer.hasFlag hWitness)]
  cases isWitnessProgram script with
  | none => exact .pure _
  | some found =>
    exact .bind (.errorIf _ _) fun _ => .bind (allows_verifyWitnessProgram hFewer _ _ _ _) fun _ => .pure _

theorem allows_verifyNested (hWitness : hasFlag flags' verifyWitness = true) (hP2SH : hasFlag flags' verifyP2SH = true)
    (scriptSig scriptPubKey : CScript) (stackCopy stack : List Bytes) :
    Allows (verifyNested flags checker witness scriptSig scriptPubKey stackCopy stack)
      (verifyNested flags' checker witness scriptSig scriptPubKey stackCopy stack) := by
  simp only [verifyNested, hP2SH, hFewer.hasFlag hP2SH, true_and]
  exact .ite (.bind (.errorIf _ _) fun _ => .bind (.assert _) fun _ => .bind (allows_evalScript hFewer _ _ _ _) fun _ =>
    .bind (allows_requireTrue _) fun _ => allows_verifyWitnessOf hFewer _ _ hWitness _ _ _ _) (.pure _)

end Verify

/-- `q` succeeds where `p` does, with whatever values. -/
def Verify.Passes {α β : Type} (p : Verify α) (q : Verify β) : Prop :=
  ∀ checks checks' a last, p checks = .ok a last → ∃ b last', q checks' = .ok b last'

namespace Verify.Passes

variable {α β γ : Type} {p : Verify α} {q : Verify β}

theorem of_allows {q : Verify α} (hAllows : Verify.Allows p q) : Passes p q := by
  intro checks checks' a last hRun
  obtain ⟨last', hRun', -⟩ := hAllows checks checks' a last hRun
  exact ⟨a, last', hRun'⟩

theorem bind {q : Verify α} {f : α → Verify β} {g : α → Verify γ} (hFirst : Verify.Allows p q)
    (hRest : ∀ a, Passes (f a) (g a)) : Passes (p >>= f) (q >>= g) := by
  intro checks checks' b last hRun
  obtain ⟨a, mid, hOk, hThen⟩ := exists_of_bind_ok hRun
  obtain ⟨mid', hOk', -⟩ := hFirst checks checks' a mid hOk
  rw [bind_ok hOk']
  exact hRest a mid mid' b last hThen

/-- What comes first or last in the stricter run may be left out in the other. -/
theorem drop_first {f : α → Verify γ} (hRest : ∀ a, Passes (f a) q) : Passes (p >>= f) q := by
  intro checks checks' b last hRun
  obtain ⟨a, mid, -, hThen⟩ := exists_of_bind_ok hRun
  exact hRest a mid checks' b last hThen

theorem drop_last {f : α → Verify γ} (hFirst : Passes p q) : Passes (p >>= f) q := by
  intro checks checks' b last hRun
  obtain ⟨a, mid, hOk, -⟩ := exists_of_bind_ok hRun
  exact hFirst checks checks' a mid hOk

theorem pure (p : Verify α) (b : β) : Passes p (Pure.pure b) := fun _ checks' _ _ _ => ⟨b, checks', rfl⟩

theorem bind_pure {g : β → Verify γ} {c : γ} (hPasses : Passes p q) (hPure : ∀ b, g b = Pure.pure c) :
    Passes p (q >>= g) := by
  intro checks checks' a last hRun
  obtain ⟨b, last', hRun'⟩ := hPasses checks checks' a last hRun
  rw [bind_ok hRun', hPure b]
  exact ⟨c, last', rfl⟩

end Verify.Passes

section Verify

variable {flags flags' : UInt32} (hFewer : FewerFlags flags' flags) (checker : BaseSignatureChecker)
  (witness : List Bytes)

open Verify (Allows Passes)

theorem verifyWitnessOf_off (hWitness : hasFlag flags' verifyWitness = false) (script : CScript) (malleated : Prop)
    [Decidable malleated] (e : ScriptError) (stack : List Bytes) :
    verifyWitnessOf flags' checker witness script malleated e stack = pure (false, stack) := by
  simp [verifyWitnessOf, hWitness]

include hFewer

/-- The stage for script hashes where `WITNESS` is off. -/
theorem passes_verifyNested (hWitness : hasFlag flags' verifyWitness = false) (scriptSig scriptPubKey : CScript)
    (stackCopy stack stack' : List Bytes) :
    Passes (verifyNested flags checker witness scriptSig scriptPubKey stackCopy stack)
      (verifyNested flags' checker witness scriptSig scriptPubKey stackCopy stack') := by
  rw [verifyNested, verifyNested]
  by_cases hNested : hasFlag flags' verifyP2SH = true ∧ isPayToScriptHash scriptPubKey = true
  · rw [if_pos hNested, if_pos ⟨hFewer.hasFlag hNested.1, hNested.2⟩]
    refine .bind (.errorIf _ _) fun _ => .bind (.assert _) fun _ => .bind (allows_evalScript hFewer _ _ _ _) fun _ =>
      .bind (allows_requireTrue _) fun _ => ?_
    rw [verifyWitnessOf_off checker witness hWitness]
    exact .pure _ _
  · rw [if_neg hNested]
    exact .pure _ _

theorem passes_verifyScript (hAllowed : FlagsAllowed flags') (scriptSig scriptPubKey : CScript) :
    Passes (verifyScript flags checker scriptSig scriptPubKey witness)
      (verifyScript flags' checker scriptSig scriptPubKey witness) := by
  refine .bind (.onFlag hFewer _ fun _ => .errorIf _ _) fun _ => .bind (allows_evalScript hFewer _ _ _ _) fun stackCopy =>
    .bind (allows_evalScript hFewer _ _ _ _) fun stack => .bind (allows_requireTrue _) fun _ => ?_
  cases hWitness : hasFlag flags' verifyWitness with
  | true =>
    have hP2SH := hAllowed.witness hWitness
    have hOf := allows_verifyWitnessOf hFewer checker witness hWitness
    have hNested := allows_verifyNested hFewer checker witness hWitness hP2SH scriptSig scriptPubKey stackCopy
    refine .of_allows (.bind (hOf _ _ _ _) fun bare => .bind (hNested _) fun nested => .bind (.onFlag hFewer _ fun _ => ?_)
      fun _ => .onFlag hFewer _ fun _ => ?_)
    · rw [hP2SH, hWitness, hFewer.hasFlag hP2SH, hFewer.hasFlag hWitness]
      exact .bind (.assert _) fun _ => .bind (.assert _) fun _ => .errorIf _ _
    · rw [hP2SH, hFewer.hasFlag hP2SH]
      exact .bind (.assert _) fun _ => .errorIf _ _
  | false =>
    have hClean : hasFlag flags' verifyCleanstack = false := by
      cases hOn : hasFlag flags' verifyCleanstack with
      | false => rfl
      | true => rw [(hAllowed.cleanstack hOn).2] at hWitness; exact hWitness
    rw [verifyWitnessOf_off checker witness hWitness, pure_bind]
    refine .drop_first fun bare => .bind_pure (c := ()) (.drop_last (passes_verifyNested hFewer _ _ hWitness _ _ _ _ _))
      fun nested => ?_
    rw [requireCleanStack, requireExpectedWitness, onFlag, onFlag, hClean, hWitness]
    rfl

end Verify

/-! ## Blocks -/

theorem fewerFlags_ite {c c' : Prop} [Decidable c] [Decidable c'] (hImp : c' → c) {flag : UInt32} :
    FewerFlags (if c' then flag else 0) (if c then flag else 0) := by
  rw [FewerFlags]
  by_cases h : c'
  · rw [if_pos h, if_pos (hImp h), UInt32.and_self]
  · rw [if_neg h, UInt32.zero_and]

theorem FewerFlags.or {a a' b b' : UInt32} (hA : FewerFlags a' a) (hB : FewerFlags b' b) :
    FewerFlags (a' ||| b') (a ||| b) := by
  rw [FewerFlags, ← UInt32.toBitVec_inj] at hA hB ⊢
  apply BitVec.eq_of_getLsbD_eq
  intro i hi
  have hBitA := congrArg (BitVec.getLsbD · i) hA
  have hBitB := congrArg (BitVec.getLsbD · i) hB
  simp only [UInt32.toBitVec_and, UInt32.toBitVec_or, BitVec.getLsbD_and, BitVec.getLsbD_or] at hBitA hBitB ⊢
  grind

/-- The later of two blocks is checked with all the flags of the earlier. -/
theorem fewerFlags_getBlockScriptFlags {height height' : Int} (hLe : height' ≤ height) (hash hashPrevBlock : Uint256) :
    FewerFlags (getBlockScriptFlags (BlockIndex.make height' hash hashPrevBlock))
      (getBlockScriptFlags (BlockIndex.make height hash hashPrevBlock)) := by
  have hEnabled : isWitnessEnabled (BlockIndex.make height' hash hashPrevBlock) = true →
      isWitnessEnabled (BlockIndex.make height hash hashPrevBlock) = true := by
    intro hOn
    have hHeight := of_decide_eq_true hOn
    refine decide_eq_true (hHeight.trans ?_)
    change (if hashPrevBlock.isNull = true then 0 else height') ≤ if hashPrevBlock.isNull = true then 0 else height
    split
    · exact Int.le_refl 0
    · exact hLe
  exact .or (.or (.or (.or (.or (fewerFlags_ite id) (fewerFlags_ite id)) (fewerFlags_ite fun h => h.trans hLe))
    (fewerFlags_ite fun h => h.trans hLe)) (fewerFlags_ite fun h => h.trans hLe)) (fewerFlags_ite hEnabled)

/-- Fewer flags never refuse more. `EvalScript` leaves the same stack under fewer flags if it succeeds; `VerifyScript`
succeeds under fewer flags, if these may stand together; so an input that a later block may hold could have stood in an
earlier one. -/
theorem verifyScript_soft_fork :
    (∀ (env : Env) (flags' : UInt32), flags' &&& env.flags = flags' →
      ∀ stack script checks checks' stack' last, evalScript env stack script checks = .ok stack' last →
        ∃ last', evalScript { env with flags := flags' } stack script checks' = .ok stack' last') ∧
    (∀ flags flags' : UInt32, flags' &&& flags = flags' → FlagsAllowed flags' →
      ∀ checker scriptSig scriptPubKey witness checks checks' last,
        verifyScript flags checker scriptSig scriptPubKey witness checks = .ok () last →
        ∃ last', verifyScript flags' checker scriptSig scriptPubKey witness checks' = .ok () last') ∧
    ∀ (height height' : Int), height' ≤ height → ∀ hash hashPrevBlock curve scriptSig scriptPubKey witness tx nIn amount,
      verifyScriptWith curve scriptSig scriptPubKey witness
        (getBlockScriptFlags (BlockIndex.make height hash hashPrevBlock)) tx nIn amount = true →
      verifyScriptWith curve scriptSig scriptPubKey witness
        (getBlockScriptFlags (BlockIndex.make height' hash hashPrevBlock)) tx nIn amount = true := by
  refine ⟨?_, ?_, ?_⟩
  · intro env flags' hFewer stack script checks checks' stack' last hRun
    obtain ⟨last', hRun', -⟩ := allows_evalScript hFewer _ _ _ _ checks checks' stack' last hRun
    exact ⟨last', hRun'⟩
  · intro flags flags' hFewer hAllowed checker scriptSig scriptPubKey witness checks checks' last hRun
    obtain ⟨_, last', hRun'⟩ := passes_verifyScript hFewer checker witness hAllowed _ _ checks checks' () last hRun
    exact ⟨last', hRun'⟩
  · intro height height' hLe hash hashPrevBlock curve scriptSig scriptPubKey witness tx nIn amount hOk
    rw [verifyScriptWith] at hOk ⊢
    split at hOk
    case isFalse => cases hOk
    case isTrue hIn =>
      rw [dif_pos hIn]
      dsimp only at hOk ⊢
      split at hOk
      case h_2 => cases hOk
      case h_1 _ last hRun =>
        obtain ⟨_, last', hRun'⟩ := passes_verifyScript (fewerFlags_getBlockScriptFlags hLe hash hashPrevBlock) _ witness
          (flagsAllowed_getBlockScriptFlags _) scriptSig scriptPubKey 0 0 _ last hRun
        rw [hRun']

end BitcoinGpuMiner
