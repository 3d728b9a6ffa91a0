import BitcoinGpuMiner.Chain.Branches
import BitcoinGpuMiner.Script.SoftFork
import BitcoinGpuMiner.Script.Templates

/-! # What an output asks of the input that spends it

`VerifyScript` with the flags of a block, for outputs to a key hash, to a script hash and to a witness program.
-/

namespace BitcoinGpuMiner

set_option autoImplicit false

open CScript Foundation ScriptValidation

/-- What the flags of all blocks have in common. -/
structure BlockFlags (flags : UInt32) : Prop where
  p2sh : hasFlag flags verifyP2SH = true
  witness : hasFlag flags verifyWitness = true
  sigpushonly : hasFlag flags verifySigpushonly = false
  cleanstack : hasFlag flags verifyCleanstack = false
  discourage : hasFlag flags verifyDiscourageUpgradableWitnessProgram = false

theorem blockFlags_scriptFlagsAt (height : Int) : BlockFlags (scriptFlagsAt height) := by
  have hException : params.bip16Exception.isNull = true := by decide
  constructor <;>
    simp only [scriptFlagsAt, getBlockScriptFlags, hException, Bool.true_or, if_true, hasFlag_or,
      hasFlag_ite, Bool.or_eq_true, Bool.and_eq_true, decide_eq_true_eq, Bool.or_eq_false_iff, Bool.and_eq_false_imp]
  case p2sh => exact .inl (.inl (.inl (.inl (.inl (by decide)))))
  case witness => exact .inl (.inl (.inl (.inl (.inr (by decide)))))
  all_goals
    exact ⟨⟨⟨⟨⟨by decide, by decide⟩, fun _ => by decide⟩, fun _ => by decide⟩, fun _ => by decide⟩, fun _ => by decide⟩

namespace Verify

variable {α β : Type} {p : Verify α} {a : α} {b : β}

/-- `p` succeeds with `a`. -/
def Gives (p : Verify α) (a : α) : Prop := ∃ checks, p 0 = .ok a checks

theorem gives_of_ok (hBlind : Allows p p) {checks checks' : Nat} (hRun : p checks = .ok a checks') : Gives p a := by
  obtain ⟨last, hRun', -⟩ := hBlind checks 0 a checks' hRun
  exact ⟨last, hRun'⟩

theorem gives_bind {f : α → Verify β} (hBlind : ∀ a, Allows (f a) (f a)) :
    Gives (p >>= f) b ↔ ∃ a, Gives p a ∧ Gives (f a) b := by
  constructor
  · rintro ⟨last, hRun⟩
    obtain ⟨a, mid, hFirst, hThen⟩ := exists_of_bind_ok hRun
    exact ⟨a, ⟨mid, hFirst⟩, gives_of_ok (hBlind a) hThen⟩
  · rintro ⟨a, ⟨mid, hFirst⟩, last, hThen⟩
    obtain ⟨last', hThen', -⟩ := hBlind a 0 mid b last hThen
    exact ⟨last', (bind_ok hFirst).trans hThen'⟩

theorem gives_then {p : Verify Unit} {q : Verify β} (hBlind : Allows q q) :
    Gives (p >>= fun _ => q) b ↔ Gives p () ∧ Gives q b := by
  rw [gives_bind fun _ => hBlind]
  constructor
  · rintro ⟨_, hBoth⟩
    exact hBoth
  · intro hBoth
    exact ⟨(), hBoth⟩

theorem gives_pure {a' : α} : Gives (Pure.pure a : Verify α) a' ↔ a = a' := by
  constructor
  · rintro ⟨_, hRun⟩
    cases hRun
    rfl
  · rintro rfl
    exact ⟨0, rfl⟩

theorem gives_throw (halt : Halt) : ¬ Gives (throw halt : Verify α) a := by
  rintro ⟨_, hRun⟩
  cases hRun

theorem gives_errorIf {c : Prop} [Decidable c] {e : ScriptError} : Gives (errorIf c e) () ↔ ¬ c := by
  rw [errorIf]
  split
  case isTrue h => exact iff_of_false (gives_throw _) (not_not.mpr h)
  case isFalse h => exact iff_of_true (gives_pure.mpr rfl) h

theorem gives_assert {c : Prop} [Decidable c] : Gives (assert c) () ↔ c := by
  rw [assert]
  split
  case isTrue h => exact iff_of_true (gives_pure.mpr rfl) h
  case isFalse h => exact iff_of_false (gives_throw _) h

end Verify

/-! ## Outputs -/

/-- A hash as `uint160` holds it. -/
abbrev Hash160 := { bytes : Bytes // bytes.length = 20 }

/-- A witness program of version 0 that can be spent. -/
abbrev ProgramV0 := { program : Bytes // program.length = 20 ∨ program.length = 32 }

inductive Lock
  | pubKeyHash (hash : Hash160)
  | scriptHash (hash : Hash160)
  | witness (program : ProgramV0)

/-- The output script. -/
def Lock.script : Lock → CScript
  | .pubKeyHash hash => payToPubKeyHash hash.val
  | .scriptHash hash => OP_HASH160 :: 0x14 :: (hash.val ++ [OP_EQUAL])
  | .witness program => OP_0 :: UInt8.ofNat program.val.length :: program.val

/-- A key with the hash that is asked for and its signature. -/
def Env.UnlocksKeyHash (env : Env) (hash vchPubKey vchSig : Bytes) : Prop :=
  hash160 vchPubKey = hash ∧ env.ChecksSig vchSig vchPubKey (payToPubKeyHash hash) true

section

variable (flags : UInt32) (checker : BaseSignatureChecker) (witness : List Bytes)

open Verify (Gives)

/-- What a witness brings for a program of 20 bytes. -/
def WitnessUnlocksKey (program : Bytes) : Prop :=
  ∃ vchSig vchPubKey, witness = [vchSig, vchPubKey] ∧ vchSig.length ≤ maxScriptElementSize ∧
    vchPubKey.length ≤ maxScriptElementSize ∧ Env.UnlocksKeyHash ⟨flags, checker, .witnessV0⟩ program vchPubKey vchSig

/-- What a witness brings for a program of 32 bytes. -/
def WitnessUnlocksScript (program : Bytes) : Prop :=
  ∃ items script vch, witness = items ++ [script] ∧ Sha256.hash script = program ∧
    (∀ item ∈ items, item.length ≤ maxScriptElementSize) ∧
    Gives (evalScript ⟨flags, checker, .witnessV0⟩ items.reverse script) [vch] ∧ castToBool vch = true

/-- Programs of the other versions ask for nothing. -/
def WitnessUnlocks (version : Nat) (program : Bytes) : Prop :=
  version = 0 → program.length = 20 ∧ WitnessUnlocksKey flags checker witness program ∨
    program.length = 32 ∧ WitnessUnlocksScript flags checker witness program

/-- What the input brings. -/
def Lock.OpenedBy (scriptSig : CScript) : Lock → Prop
  | .pubKeyHash hash => witness = [] ∧ ∃ vchPubKey vchSig rest,
      Gives (evalScript ⟨flags, checker, .base⟩ [] scriptSig) (vchPubKey :: vchSig :: rest) ∧
        rest.length + 4 ≤ maxStackSize ∧ Env.UnlocksKeyHash ⟨flags, checker, .base⟩ hash vchPubKey vchSig
  | .scriptHash hash => isPushOnly scriptSig = true ∧ ∃ script rest,
      Gives (evalScript ⟨flags, checker, .base⟩ [] scriptSig) (script :: rest) ∧ rest.length + 2 ≤ maxStackSize ∧
        hash160 script = hash ∧
        (∃ vch rest', Gives (evalScript ⟨flags, checker, .base⟩ rest script) (vch :: rest') ∧ castToBool vch = true) ∧
        match isWitnessProgram script with
        | none => witness = []
        | some (version, program) =>
          scriptSig = pushBytes [] script ∧ WitnessUnlocks flags checker witness version program
  | .witness program =>
      scriptSig = [] ∧ castToBool program = true ∧ WitnessUnlocks flags checker witness 0 program

end

/-! ## The stages -/

section

variable {flags : UInt32} (checker : BaseSignatureChecker) (witness : List Bytes)

open Verify

theorem blind_evalScript (env : Env) (stack : List Bytes) (script : CScript) :
    Allows (evalScript env stack script) (evalScript env stack script) :=
  allows_evalScript UInt32.and_self _ _ _ _

theorem gives_requireTrue (stack : List Bytes) :
    Gives (requireTrue stack) () ↔ ∃ vch rest, stack = vch :: rest ∧ castToBool vch = true := by
  rw [requireTrue, gives_then (.errorIf _ _), gives_errorIf, gives_errorIf]
  cases stack <;> simp

theorem executeWitnessScript_iff (stack : List Bytes) (script : CScript) :
    Gives (executeWitnessScript flags checker stack script) () ↔
      (∀ vch ∈ stack, vch.length ≤ maxScriptElementSize) ∧
        ∃ vch, Gives (evalScript ⟨flags, checker, .witnessV0⟩ stack script) [vch] ∧ castToBool vch = true := by
  rw [executeWitnessScript, gives_then (.bind (blind_evalScript _ _ _) fun _ => .bind (.errorIf _ _) fun _ => .errorIf _ _),
    gives_bind fun _ => .bind (.errorIf _ _) fun _ => .errorIf _ _, gives_errorIf]
  simp only [gives_then (Allows.errorIf _ _), gives_errorIf]
  constructor
  · rintro ⟨hItems, stack', hEval, hOne, hTrue⟩
    obtain ⟨vch, rfl⟩ := List.length_eq_one_iff.mp (not_not.mp hOne)
    exact ⟨by simpa using hItems, vch, hEval, by simpa using hTrue⟩
  · rintro ⟨hItems, vch, hEval, hTrue⟩
    exact ⟨by simpa using hItems, [vch], hEval, by simp, by simpa using hTrue⟩

theorem gives_payToPubKeyHash (env : Env) {stack stack' : List Bytes} {hash : Bytes} (hHash : hash.length = 20) :
    Gives (evalScript env stack (payToPubKeyHash hash)) stack' ↔
      ∃ vchPubKey vchSig rest fSuccess, stack = vchPubKey :: vchSig :: rest ∧ rest.length + 4 ≤ maxStackSize ∧
        hash160 vchPubKey = hash ∧ env.ChecksSig vchSig vchPubKey (payToPubKeyHash hash) fSuccess ∧
        vchBool fSuccess :: rest = stack' := by
  simp only [Gives, env.evalScript_payToPubKeyHash_iff hHash]
  constructor
  · rintro ⟨_, vchPubKey, vchSig, rest, fSuccess, hStack, hFits, hEq, hChecks, hStack', -⟩
    exact ⟨vchPubKey, vchSig, rest, fSuccess, hStack, hFits, hEq, hChecks, hStack'⟩
  · rintro ⟨vchPubKey, vchSig, rest, fSuccess, hStack, hFits, hEq, hChecks, hStack'⟩
    exact ⟨_, vchPubKey, vchSig, rest, fSuccess, hStack, hFits, hEq, hChecks, hStack', rfl⟩

theorem castToBool_vchBool (b : Bool) : castToBool (vchBool b) = b := by
  cases b <;> rfl

/-- The witness is the stack with the top item last. -/
theorem executeWitnessScript_key_iff {program : Bytes} (hProgram : program.length = 20) :
    witness.length = 2 ∧ Gives (executeWitnessScript flags checker witness.reverse (payToPubKeyHash program)) () ↔
      WitnessUnlocksKey flags checker witness program := by
  rw [executeWitnessScript_iff]
  simp only [gives_payToPubKeyHash _ hProgram]
  constructor
  · rintro ⟨hTwo, hSizes, vch, ⟨vchPubKey, vchSig, rest, fSuccess, hStack, -, hEq, hChecks, hLast⟩, hTrue⟩
    obtain ⟨rfl, rfl⟩ : vchBool fSuccess = vch ∧ rest = [] := by simpa using hLast
    obtain rfl : fSuccess = true := by rwa [castToBool_vchBool] at hTrue
    obtain rfl : witness = [vchSig, vchPubKey] := by rw [← witness.reverse_reverse, hStack]; rfl
    exact ⟨vchSig, vchPubKey, rfl, hSizes _ (by simp), hSizes _ (by simp), hEq, hChecks⟩
  · rintro ⟨vchSig, vchPubKey, rfl, hSig, hPubKey, hEq, hChecks⟩
    exact ⟨rfl, by simp [hSig, hPubKey], vchBool true, ⟨vchPubKey, vchSig, [], true, rfl, by decide, hEq, hChecks, rfl⟩, rfl⟩

theorem executeWitnessScript_script_iff {program : Bytes} :
    (∃ script, witness.getLast? = some script ∧ Sha256.hash script = program ∧
        Gives (executeWitnessScript flags checker witness.dropLast.reverse script) ()) ↔
      WitnessUnlocksScript flags checker witness program := by
  simp only [executeWitnessScript_iff, List.mem_reverse]
  constructor
  · rintro ⟨script, hLast, hHash, hSizes, vch, hEval, hTrue⟩
    have hWitness : witness = witness.dropLast ++ [script] :=
      (List.dropLast_append_getLast? script hLast).symm
    exact ⟨witness.dropLast, script, vch, hWitness, hHash, hSizes, hEval, hTrue⟩
  · rintro ⟨items, script, vch, rfl, hHash, hSizes, hEval, hTrue⟩
    refine ⟨script, List.getLast?_concat, hHash, ?_⟩
    rw [List.dropLast_concat]
    exact ⟨hSizes, vch, hEval, hTrue⟩

theorem verifyWitnessProgram_iff (hFlags : BlockFlags flags) (version : Nat) (program : Bytes) :
    Gives (verifyWitnessProgram flags checker witness version program) () ↔
      WitnessUnlocks flags checker witness version program := by
  have hBlind := allows_executeWitnessScript (UInt32.and_self (a := flags)) checker
  rw [verifyWitnessProgram, WitnessUnlocks, ← executeWitnessScript_script_iff, witnessV0ScriptHashSize,
    witnessV0KeyHashSize]
  by_cases hVersion : version = 0
  case neg => simp [hVersion, onFlag, hFlags.discourage, gives_pure]
  rw [if_pos hVersion]
  by_cases hScript : program.length = 32
  · have hKey : program.length ≠ 20 := by omega
    rw [if_pos hScript]
    cases hLast : witness.getLast? with
    | none => simp [gives_throw, hScript, hVersion]
    | some script => simp [gives_then (hBlind _ _), gives_errorIf, hScript, hVersion]
  rw [if_neg hScript]
  by_cases hKey : program.length = 20
  · rw [if_pos hKey, gives_then (hBlind _ _), gives_errorIf, not_not, executeWitnessScript_key_iff _ _ hKey]
    simp [hVersion, hKey]
  · rw [if_neg hKey]
    simp [gives_throw, hVersion, hKey, hScript]

theorem verifyWitnessOf_iff (hFlags : BlockFlags flags) {script : CScript} {malleated : Prop} [Decidable malleated]
    {e : ScriptError} {stack : List Bytes} {found : Bool × List Bytes} :
    Gives (verifyWitnessOf flags checker witness script malleated e stack) found ↔
      match isWitnessProgram script with
      | none => (false, stack) = found
      | some (version, program) => ¬ malleated ∧ WitnessUnlocks flags checker witness version program ∧
          (true, resizeToOne stack) = found := by
  rw [verifyWitnessOf, if_pos hFlags.witness]
  cases isWitnessProgram script with
  | none => exact gives_pure
  | some inside =>
    have hBlind := allows_verifyWitnessProgram (UInt32.and_self (a := flags)) checker witness
    simp only [gives_then (.bind (hBlind _ _) fun _ => .pure _), gives_then (.pure _), gives_errorIf, gives_pure,
      verifyWitnessProgram_iff checker witness hFlags]

theorem verifyScript_eq (hFlags : BlockFlags flags) (scriptSig scriptPubKey : CScript) :
    verifyScript flags checker scriptSig scriptPubKey witness = (do
      let stackCopy ← evalScript ⟨flags, checker, .base⟩ [] scriptSig
      let stack ← evalScript ⟨flags, checker, .base⟩ stackCopy scriptPubKey
      requireTrue stack
      let bare ← verifyWitnessOf flags checker witness scriptPubKey (scriptSig.length ≠ 0) .witnessMalleated stack
      let nested ← verifyNested flags checker witness scriptSig scriptPubKey stackCopy bare.2
      errorIf ((bare.1 || nested.1) = false ∧ witness ≠ []) .witnessUnexpected) := by
  simp [verifyScript, onFlag, requireCleanStack, requireExpectedWitness, assert, hFlags.sigpushonly, hFlags.cleanstack,
    hFlags.witness, hFlags.p2sh]

/-- The stages of `VerifyScript` under the flags of a block. -/
theorem verifyScript_iff (hFlags : BlockFlags flags) (scriptSig scriptPubKey : CScript) :
    Gives (verifyScript flags checker scriptSig scriptPubKey witness) () ↔
      ∃ stackCopy vch rest, Gives (evalScript ⟨flags, checker, .base⟩ [] scriptSig) stackCopy ∧
        Gives (evalScript ⟨flags, checker, .base⟩ stackCopy scriptPubKey) (vch :: rest) ∧ castToBool vch = true ∧
        ∃ bare nested,
          Gives (verifyWitnessOf flags checker witness scriptPubKey (scriptSig.length ≠ 0) .witnessMalleated
            (vch :: rest)) bare ∧
          Gives (verifyNested flags checker witness scriptSig scriptPubKey stackCopy bare.2) nested ∧
          (bare.1 = false → nested.1 = false → witness = []) := by
  have hNested := allows_verifyNested (UInt32.and_self (a := flags)) checker witness hFlags.witness hFlags.p2sh scriptSig
    scriptPubKey
  have hOf := allows_verifyWitnessOf (UInt32.and_self (a := flags)) checker witness hFlags.witness scriptPubKey
    (scriptSig.length ≠ 0) .witnessMalleated
  have hLast : ∀ stackCopy bare, Allows
      (verifyNested flags checker witness scriptSig scriptPubKey stackCopy (Prod.snd bare) >>= fun nested =>
        errorIf ((Prod.fst bare || nested.1) = false ∧ witness ≠ []) .witnessUnexpected) _ :=
    fun stackCopy bare => .bind (hNested stackCopy bare.2) fun _ => .errorIf _ _
  rw [verifyScript_eq checker witness hFlags, gives_bind fun stackCopy => .bind (blind_evalScript _ _ _) fun _ =>
    .bind (allows_requireTrue _) fun _ => .bind (hOf _) fun bare => hLast stackCopy bare]
  simp only [gives_bind fun stack => .bind (allows_requireTrue stack) fun _ => .bind (hOf _) fun bare => hLast _ bare,
    gives_then (.bind (hOf _) fun bare => hLast _ bare), gives_bind fun bare => hLast _ bare,
    gives_bind fun _ => .errorIf _ _, gives_requireTrue, gives_errorIf]
  constructor
  · rintro ⟨stackCopy, hSig, stack, hPubKey, ⟨vch, rest, rfl, hTrue⟩, bare, hBare, nested, hInside, hWitness⟩
    refine ⟨stackCopy, vch, rest, hSig, hPubKey, hTrue, bare, nested, hBare, hInside, fun hNo hNone => ?_⟩
    by_contra hSome
    exact hWitness ⟨by rw [hNo, hNone]; rfl, hSome⟩
  · rintro ⟨stackCopy, vch, rest, hSig, hPubKey, hTrue, bare, nested, hBare, hInside, hWitness⟩
    refine ⟨stackCopy, hSig, _, hPubKey, ⟨vch, rest, rfl, hTrue⟩, bare, hBare, nested, hInside, ?_⟩
    rintro ⟨hNo, hSome⟩
    obtain ⟨hNo, hNone⟩ := Bool.or_eq_false_iff.mp hNo
    exact hSome (hWitness hNo hNone)

theorem verifyNested_iff (hFlags : BlockFlags flags) {scriptSig scriptPubKey : CScript}
    (hHash : isPayToScriptHash scriptPubKey = true) {stackCopy stack : List Bytes} {nested : Bool × List Bytes} :
    Gives (verifyNested flags checker witness scriptSig scriptPubKey stackCopy stack) nested ↔
      isPushOnly scriptSig = true ∧ ∃ script rest vch rest', stackCopy = script :: rest ∧
        Gives (evalScript ⟨flags, checker, .base⟩ rest script) (vch :: rest') ∧ castToBool vch = true ∧
        Gives (verifyWitnessOf flags checker witness script (scriptSig ≠ pushBytes [] script) .witnessMalleatedP2SH
          (vch :: rest')) nested := by
  have hOf := allows_verifyWitnessOf (UInt32.and_self (a := flags)) checker witness hFlags.witness
  rw [verifyNested, if_pos ⟨hFlags.p2sh, hHash⟩, verifyP2SHScript,
    gives_then (.bind (.assert _) fun _ => .bind (blind_evalScript _ _ _) fun _ => .bind (allows_requireTrue _) fun _ =>
      hOf _ _ _ _),
    gives_then (.bind (blind_evalScript _ _ _) fun _ => .bind (allows_requireTrue _) fun _ => hOf _ _ _ _),
    gives_bind fun _ => .bind (allows_requireTrue _) fun _ => hOf _ _ _ _, gives_errorIf, gives_assert,
    Bool.not_eq_false]
  simp only [gives_then (hOf _ _ _ _), gives_requireTrue]
  refine and_congr_right fun _ => ?_
  cases stackCopy with
  | nil => simp
  | cons script rest =>
    constructor
    · rintro ⟨-, _, hEval, ⟨vch, rest', rfl, hTrue⟩, hInside⟩
      exact ⟨script, rest, vch, rest', rfl, hEval, hTrue, hInside⟩
    · rintro ⟨_, _, vch, rest', hEq, hEval, hTrue, hInside⟩
      cases hEq
      exact ⟨List.cons_ne_nil _ _, _, hEval, ⟨vch, rest', rfl, hTrue⟩, hInside⟩

theorem verifyNested_off {scriptPubKey : CScript} (hHash : isPayToScriptHash scriptPubKey = false) (scriptSig : CScript)
    (stackCopy stack : List Bytes) :
    verifyNested flags checker witness scriptSig scriptPubKey stackCopy stack = pure (false, stack) := by
  simp [verifyNested, hHash]

end

/-! ## Opening a lock -/

theorem isPayToScriptHash_script (lock : Lock) :
    isPayToScriptHash lock.script = match lock with
      | .scriptHash _ => true
      | _ => false := by
  cases lock with
  | pubKeyHash hash => simp [isPayToScriptHash, Lock.script, Env.payToPubKeyHash_eq hash.property, hash.property]
  | scriptHash hash => simp [isPayToScriptHash, Lock.script, hash.property]
  | witness program => simp [isPayToScriptHash, Lock.script, show OP_0 ≠ OP_HASH160 by decide]

theorem isWitnessProgram_script (lock : Lock) :
    isWitnessProgram lock.script = match lock with
      | .witness program => some (0, program.val)
      | _ => none := by
  cases lock with
  | pubKeyHash hash =>
    simp [isWitnessProgram, Lock.script, Env.payToPubKeyHash_eq hash.property, hash.property,
      show ¬ OP_DUP = OP_0 ∧ (OP_DUP < OP_1 ∨ OP_16 < OP_DUP) by decide]
  | scriptHash hash =>
    simp [isWitnessProgram, Lock.script, hash.property]
  | witness program =>
    obtain ⟨program, hLength | hLength⟩ := program <;> simp [isWitnessProgram, Lock.script, hLength, decodeOpN]

section

variable {flags : UInt32} (checker : BaseSignatureChecker) (witness : List Bytes) (scriptSig : CScript)

open Verify

theorem gives_empty_script (env : Env) {stack : List Bytes} : Gives (evalScript env [] []) stack ↔ [] = stack := by
  simp only [Gives, env.evalScript_eq_ok_iff, Env.evalLoop_nil, Machine.start]
  constructor
  · rintro ⟨_, -, _, hRun, -, rfl, -⟩
    cases hRun
    rfl
  · rintro rfl
    exact ⟨0, Nat.zero_le _, _, rfl, rfl, rfl, rfl⟩

theorem gives_payToScriptHash (env : Env) {stack stack' : List Bytes} (hash : Hash160) :
    Gives (evalScript env stack (Lock.scriptHash hash).script) stack' ↔
      ∃ vch rest, stack = vch :: rest ∧ rest.length + 2 ≤ maxStackSize ∧
        vchBool (hash160 vch == hash.val) :: rest = stack' := by
  simp only [Gives, Lock.script, env.evalScript_payToScriptHash_iff hash.property]
  constructor
  · rintro ⟨_, vch, rest, hStack, hFits, hStack', -⟩
    exact ⟨vch, rest, hStack, hFits, hStack'⟩
  · rintro ⟨vch, rest, hStack, hFits, hStack'⟩
    exact ⟨_, vch, rest, hStack, hFits, hStack', rfl⟩

theorem gives_witnessProgram (env : Env) {stack stack' : List Bytes} (program : ProgramV0) :
    Gives (evalScript env stack (Lock.witness program).script) stack' ↔
      stack.length + 2 ≤ maxStackSize ∧ program.val :: [] :: stack = stack' := by
  simp only [Gives, Lock.script, env.evalScript_witnessProgram_iff program.property]
  constructor
  · rintro ⟨_, hFits, hStack, -⟩
    exact ⟨hFits, hStack⟩
  · rintro ⟨hFits, hStack⟩
    exact ⟨_, hFits, hStack, rfl⟩

theorem opened_pubKeyHash (hFlags : BlockFlags flags) (hash : Hash160) :
    Gives (verifyScript flags checker scriptSig (Lock.pubKeyHash hash).script witness) () ↔
      (Lock.pubKeyHash hash).OpenedBy flags checker witness scriptSig := by
  rw [verifyScript_iff checker witness hFlags]
  simp only [verifyWitnessOf_iff checker witness hFlags, isWitnessProgram_script,
    verifyNested_off checker witness (isPayToScriptHash_script (.pubKeyHash hash)), gives_pure]
  simp only [Lock.script, gives_payToPubKeyHash _ hash.property, Lock.OpenedBy, Env.UnlocksKeyHash]
  constructor
  · rintro ⟨_, vch, rest, hSig, ⟨vchPubKey, vchSig, rest', fSuccess, rfl, hFits, hHash, hChecks, hStack⟩, hTrue, _, _,
      rfl, rfl, hWitness⟩
    cases hStack
    obtain rfl : fSuccess = true := by rwa [castToBool_vchBool] at hTrue
    exact ⟨hWitness rfl rfl, vchPubKey, vchSig, rest, hSig, hFits, hHash, hChecks⟩
  · rintro ⟨hWitness, vchPubKey, vchSig, rest, hSig, hFits, hHash, hChecks⟩
    exact ⟨_, vchBool true, rest, hSig, ⟨vchPubKey, vchSig, rest, true, rfl, hFits, hHash, hChecks, rfl⟩, rfl, _, _, rfl,
      rfl, fun _ _ => hWitness⟩

theorem opened_scriptHash (hFlags : BlockFlags flags) (hash : Hash160) :
    Gives (verifyScript flags checker scriptSig (Lock.scriptHash hash).script witness) () ↔
      (Lock.scriptHash hash).OpenedBy flags checker witness scriptSig := by
  rw [verifyScript_iff checker witness hFlags]
  simp only [verifyWitnessOf_iff checker witness hFlags, isWitnessProgram_script, gives_payToScriptHash,
    verifyNested_iff checker witness hFlags (isPayToScriptHash_script (.scriptHash hash)), Lock.OpenedBy]
  constructor
  · rintro ⟨_, vch, rest, hSig, ⟨script, rest', rfl, hFits, hStack⟩, hTrue, _, nested, rfl,
      ⟨hPush, _, _, top, below, hCopy, hEval, hTop, hInside⟩, hWitness⟩
    cases hStack
    cases hCopy
    rw [castToBool_vchBool, beq_iff_eq] at hTrue
    refine ⟨hPush, script, rest, hSig, hFits, hTrue, ⟨top, below, hEval, hTop⟩, ?_⟩
    cases hProgram : isWitnessProgram script with
    | none =>
      rw [hProgram] at hInside
      cases hInside
      exact hWitness rfl rfl
    | some inside =>
      rw [hProgram] at hInside
      exact ⟨not_not.mp hInside.1, hInside.2.1⟩
  · rintro ⟨hPush, script, rest, hSig, hFits, hHash, ⟨top, below, hEval, hTop⟩, hInside⟩
    have hTrue : castToBool (vchBool (hash160 script == hash.val)) = true := by rw [castToBool_vchBool, beq_iff_eq, hHash]
    cases hProgram : isWitnessProgram script with
    | none =>
      rw [hProgram] at hInside
      refine ⟨_, _, rest, hSig, ⟨script, rest, rfl, hFits, rfl⟩, hTrue, _, (false, top :: below), rfl,
        ⟨hPush, script, rest, top, below, rfl, hEval, hTop, ?_⟩, fun _ _ => hInside⟩
      rw [hProgram]
    | some inside =>
      rw [hProgram] at hInside
      refine ⟨_, _, rest, hSig, ⟨script, rest, rfl, hFits, rfl⟩, hTrue, _, (true, resizeToOne (top :: below)), rfl,
        ⟨hPush, script, rest, top, below, rfl, hEval, hTop, ?_⟩, fun _ hNo => absurd hNo (by simp)⟩
      rw [hProgram]
      exact ⟨not_not.mpr hInside.1, hInside.2, rfl⟩

theorem opened_witness (hFlags : BlockFlags flags) (program : ProgramV0) :
    Gives (verifyScript flags checker scriptSig (Lock.witness program).script witness) () ↔
      (Lock.witness program).OpenedBy flags checker witness scriptSig := by
  rw [verifyScript_iff checker witness hFlags]
  simp only [verifyWitnessOf_iff checker witness hFlags, isWitnessProgram_script, gives_witnessProgram,
    verifyNested_off checker witness (isPayToScriptHash_script (.witness program)), gives_pure, Lock.OpenedBy]
  constructor
  · rintro ⟨_, _, _, -, ⟨-, hStack⟩, hTrue, _, _, ⟨hEmpty, hUnlocks, -⟩, -⟩
    cases hStack
    exact ⟨List.length_eq_zero_iff.mp (not_not.mp hEmpty), hTrue, hUnlocks⟩
  · rintro ⟨rfl, hTrue, hUnlocks⟩
    exact ⟨[], _, _, (gives_empty_script _).mpr rfl, ⟨by decide, rfl⟩, hTrue, _, _, ⟨by simp, hUnlocks, rfl⟩, rfl,
      fun hNo => absurd hNo (by simp)⟩

end

theorem opened_iff {flags : UInt32} (hFlags : BlockFlags flags) (checker : BaseSignatureChecker) (lock : Lock)
    (scriptSig : CScript) (witness : List Bytes) :
    Verify.Gives (verifyScript flags checker scriptSig lock.script witness) () ↔
      lock.OpenedBy flags checker witness scriptSig := by
  cases lock with
  | pubKeyHash hash => exact opened_pubKeyHash checker witness scriptSig hFlags hash
  | scriptHash hash => exact opened_scriptHash checker witness scriptSig hFlags hash
  | witness program => exact opened_witness checker witness scriptSig hFlags program

/-- Under the flags of a block, at any height, an output is spent by what it asks for and by nothing else. -/
theorem verifyScript_opens_lock (height : Int) (checker : BaseSignatureChecker) (lock : Lock) (scriptSig : CScript)
    (witness : List Bytes) :
    (∃ checks, verifyScript (scriptFlagsAt height) checker scriptSig lock.script witness 0 = .ok () checks) ↔
      lock.OpenedBy (scriptFlagsAt height) checker witness scriptSig :=
  opened_iff (blockFlags_scriptFlagsAt height) checker lock scriptSig witness

end BitcoinGpuMiner
