import BitcoinGpuMiner.Script.Signatures

/-! # Two runs side by side

Most instructions look neither at the conditions that are open nor at the number of calls of the checker, and every flag
only makes them stop more often. So a run that succeeds is followed by a run with fewer flags on a machine with other
conditions and another number of calls.
-/

namespace BitcoinGpuMiner

set_option autoImplicit false

open Exec CScript Foundation ScriptValidation

/-- Every flag of `flags'` is one of `flags`. -/
def FewerFlags (flags' flags : UInt32) : Prop := flags' &&& flags = flags'

theorem FewerFlags.hasFlag {flags flags' : UInt32} (hFewer : FewerFlags flags' flags) {flag : UInt32}
    (hOn : hasFlag flags' flag = true) : hasFlag flags flag = true := by
  rw [ScriptValidation.hasFlag, bne_iff_ne] at hOn ⊢
  intro hOff
  apply hOn
  rw [← hFewer, UInt32.and_assoc, hOff, UInt32.and_zero]

/-- How the open conditions and the numbers of calls of two machines belong together; a call in both keeps it so. -/
structure Hidden where
  rel : List Bool → Nat → List Bool → Nat → Prop
  call : ∀ {vfExec calls vfExec' calls'}, rel vfExec calls vfExec' calls' → rel vfExec (calls + 1) vfExec' (calls' + 1)

/-- The same machine but for what is hidden. -/
def SameRun (H : Hidden) (s t : Machine) : Prop :=
  ∃ vfExec calls, H.rel s.vfExec s.sigChecks vfExec calls ∧ t = { s with vfExec := vfExec, sigChecks := calls }

/-- `q` does what `p` does without stopping. -/
def Exec.Allows {α : Type} (H : Hidden) (p q : Exec α) : Prop := ∀ s t, SameRun H s t → Tracks (SameRun H) p s q t

/-- Programs that change nothing. -/
def Exec.Looks {α : Type} (p : Exec α) : Prop := ∀ s a s', p s = .ok a s' → s' = s

namespace Exec.Looks

variable {α β : Type}

theorem pure (a : α) : Looks (Pure.pure a : Exec α) := fun _ _ _ hRun => by
  cases hRun
  rfl

theorem bind {p : Exec α} {f : α → Exec β} (hFirst : Looks p) (hRest : ∀ a, Looks (f a)) : Looks (p >>= f) := by
  intro s b s'' hRun
  obtain ⟨a, s', hOk, hThen⟩ := exists_of_bind_ok hRun
  rw [hRest a s' b s'' hThen, hFirst s a s' hOk]

theorem static {p : Exec α} (hStatic : Static p) : Looks p := by
  obtain ⟨a, rfl⟩ | ⟨e, rfl⟩ := hStatic
  · exact pure a
  · intro s a s' hRun
    cases hRun

theorem ite {c : Prop} [Decidable c] {p q : Exec α} (hThen : Looks p) (hElse : Looks q) : Looks (if c then p else q) := by
  split
  · exact hThen
  · exact hElse

theorem stackSize : Looks stackSize := fun _ _ _ hRun => by
  cases hRun
  rfl

theorem stackTop (i : Nat) : Looks (stackTop i) := by
  intro s a s' hRun
  cases i with
  | zero => cases hRun
  | succ i =>
    rw [Exec.stackTop] at hRun
    cases hAt : s.stack[i]? with
    | none => simp [hAt] at hRun
    | some vch =>
      simp only [hAt, EStateM.Result.ok.injEq] at hRun
      exact hRun.2.symm

theorem scriptNum (vch : Bytes) (fRequireMinimal : Bool) (size : Nat) : Looks (scriptNum vch fRequireMinimal size) := by
  rw [Exec.scriptNum]
  cases CScriptNum.ofVch vch fRequireMinimal size with
  | ok n => exact pure n
  | error reason => exact fun s a s' hRun => by cases hRun

end Exec.Looks

namespace Exec.Allows

variable {H : Hidden} {α β : Type} {p q : Exec α}

theorem pure (a : α) : Allows H (Pure.pure a : Exec α) (Pure.pure a) := fun _ _ hSame => .pure a hSame

theorem throw (halt : Halt) (q : Exec α) : Allows H (MonadExcept.throw halt) q := fun _ _ _ => .throw halt

theorem bind {f g : α → Exec β} (hFirst : Allows H p q) (hRest : ∀ a, Allows H (f a) (g a)) : Allows H (p >>= f) (q >>= g) :=
  fun s t hSame => .bind (hFirst s t hSame) fun a => hRest a

theorem ite {c : Prop} [Decidable c] {p' q' : Exec α} (hThen : Allows H p q) (hElse : Allows H p' q') :
    Allows H (if c then p else p') (if c then q else q') := fun s t hSame =>
  .ite (fun _ => hThen s t hSame) fun _ => hElse s t hSame

theorem get {f g : Machine → Exec β}
    (hRest : ∀ s vfExec calls, H.rel s.vfExec s.sigChecks vfExec calls →
      Allows H (f s) (g { s with vfExec := vfExec, sigChecks := calls })) : Allows H (get >>= f) (get >>= g) := by
  rintro s _ ⟨vfExec, calls, hRel, rfl⟩
  exact hRest s vfExec calls hRel s _ ⟨vfExec, calls, hRel, rfl⟩

/-- A change that neither looks at what is hidden nor touches it. -/
theorem modify {f : Machine → Machine}
    (hFrame : ∀ s vfExec calls, f { s with vfExec := vfExec, sigChecks := calls } =
      { f s with vfExec := vfExec, sigChecks := calls }) : Allows H (modify f) (modify f) := by
  rintro s _ ⟨vfExec, calls, hRel, rfl⟩ a s' hRun
  cases hRun
  have hKept := hFrame s s.vfExec s.sigChecks
  refine ⟨_, rfl, vfExec, calls, ?_, hFrame s vfExec calls⟩
  change f s = _ at hKept
  rw [hKept]
  exact hRel

/-- A test that is left out. -/
theorem skip {p : Exec Unit} (hLooks : Looks p) : Allows H p (Pure.pure ()) := by
  intro s t hSame a s' hRun
  rw [hLooks s a s' hRun]
  exact ⟨t, rfl, hSame⟩

theorem static (hStatic : Static p) : Allows H p p := by
  obtain ⟨a, rfl⟩ | ⟨e, rfl⟩ := hStatic
  · exact pure a
  · exact throw _ _

theorem errorIf (c : Prop) [Decidable c] (e : ScriptError) : Allows H (errorIf c e) (errorIf c e) := static (.errorIf c e)

theorem onFlag {flags flags' : UInt32} (hFewer : FewerFlags flags' flags) (flag : UInt32) {p q : Exec Unit}
    (hLooks : Looks p) (hAllows : Allows H p q) : Allows H (onFlag flags flag p) (onFlag flags' flag q) := by
  rw [BitcoinGpuMiner.onFlag, BitcoinGpuMiner.onFlag]
  by_cases hOn : hasFlag flags' flag = true
  · rw [if_pos hOn, if_pos (hFewer.hasFlag hOn)]
    exact hAllows
  · rw [if_neg hOn]
    split
    · exact skip hLooks
    · exact pure ()

theorem onFlag_errorIf {flags flags' : UInt32} (hFewer : FewerFlags flags' flags) (flag : UInt32) (c : Prop) [Decidable c]
    (e : ScriptError) : Allows H (BitcoinGpuMiner.onFlag flags flag (BitcoinGpuMiner.errorIf c e))
      (BitcoinGpuMiner.onFlag flags' flag (BitcoinGpuMiner.errorIf c e)) :=
  onFlag hFewer flag (.static (.errorIf c e)) (errorIf c e)

theorem stackSize : Allows H stackSize stackSize := by
  rintro s _ ⟨vfExec, calls, hRel, rfl⟩ a s' hRun
  cases hRun
  exact ⟨_, rfl, vfExec, calls, hRel, rfl⟩

theorem stackTop (i : Nat) : Allows H (stackTop i) (stackTop i) := by
  rintro s _ ⟨vfExec, calls, hRel, rfl⟩ a s' hRun
  cases i with
  | zero => cases hRun
  | succ i =>
    rw [Exec.stackTop] at hRun ⊢
    cases hAt : s.stack[i]? with
    | none => simp [hAt] at hRun
    | some vch =>
      simp only [hAt, EStateM.Result.ok.injEq] at hRun ⊢
      exact ⟨_, ⟨hRun.1, rfl⟩, hRun.2 ▸ ⟨vfExec, calls, hRel, rfl⟩⟩

theorem popStack : Allows H popStack popStack := by
  rintro ⟨_ | ⟨vch, rest⟩, altstack, vfExec, code, ops, checks⟩ _ ⟨vfExec', calls, hRel, rfl⟩ a s' hRun
  · cases hRun
  · cases hRun
    exact ⟨_, rfl, vfExec', calls, hRel, rfl⟩

theorem pushStack (vch : Bytes) : Allows H (pushStack vch) (pushStack vch) := modify fun _ _ _ => rfl

theorem defined (c : Prop) [Decidable c] : Allows H (defined c) (defined c) := ite (pure ()) (throw _ _)

theorem assert (c : Prop) [Decidable c] : Allows H (assert c) (assert c) := ite (pure ()) (throw _ _)

theorem eraseStack (first last : Nat) : Allows H (eraseStack first last) (eraseStack first last) :=
  bind stackSize fun _ => bind (defined _) fun _ => modify fun _ _ _ => rfl

/-- A number that is read with the test for minimal encodings is read without it. -/
theorem scriptNum {minimal minimal' : Bool} (hMinimal : minimal' = true → minimal = true) (vch : Bytes) (size : Nat) :
    Allows H (scriptNum vch minimal size) (scriptNum vch minimal' size) := by
  rw [Exec.scriptNum, Exec.scriptNum]
  cases hNum : CScriptNum.ofVch vch minimal size with
  | error reason => exact throw _ _
  | ok n =>
    have hNum' : CScriptNum.ofVch vch minimal' size = .ok n := by
      rw [CScriptNum.ofVch] at hNum ⊢
      grind
    rw [hNum']
    exact pure n

end Exec.Allows

/-! ## The instructions -/

section Instructions

variable {H : Hidden} {minimal minimal' : Bool} (hMinimal : minimal' = true → minimal = true)

theorem allows_execStackOp (op : StackOp) : Allows H (execStackOp op) (execStackOp op) := by
  rintro s _ ⟨vfExec, calls, hRel, rfl⟩ a s' hRun
  rw [execStackOp_eq] at hRun ⊢
  cases hEffect : op.effect s.stack with
  | none => simp [hEffect] at hRun
  | some stack =>
    simp only [hEffect, EStateM.Result.ok.injEq, true_and] at hRun ⊢
    exact ⟨_, rfl, hRun ▸ ⟨vfExec, calls, hRel, rfl⟩⟩

theorem allows_execVerifySuffix (verify success : Bool) (e : ScriptError) :
    Allows H (execVerifySuffix verify success e) (execVerifySuffix verify success e) :=
  .ite (.ite .popStack (.throw _ _)) (.pure ())

theorem allows_execEqual (verify : Bool) : Allows H (execEqual verify) (execEqual verify) :=
  .bind .stackSize fun _ => .bind (.errorIf _ _) fun _ => .bind (.stackTop _) fun _ => .bind (.stackTop _) fun _ =>
    .bind .popStack fun _ => .bind .popStack fun _ => .bind (.pushStack _) fun _ => allows_execVerifySuffix _ _ _

theorem allows_execHash (op : HashOp) : Allows H (execHash op) (execHash op) :=
  .bind .stackSize fun _ => .bind (.errorIf _ _) fun _ => .bind (.stackTop _) fun _ => .bind .popStack fun _ => .pushStack _

theorem allows_execVerify : Allows H Env.execVerify Env.execVerify :=
  .bind .stackSize fun _ => .bind (.errorIf _ _) fun _ => .bind (.stackTop _) fun _ => .ite .popStack (.throw _ _)

theorem allows_execToAltStack : Allows H Env.execToAltStack Env.execToAltStack :=
  .bind .stackSize fun _ => .bind (.errorIf _ _) fun _ => .bind (.stackTop _) fun _ => .bind (.modify fun _ _ _ => rfl) fun _ =>
    .popStack

theorem allows_execFromAltStack : Allows H Env.execFromAltStack Env.execFromAltStack := by
  rintro ⟨stack, _ | ⟨vch, rest⟩, vfExec, code, ops, checks⟩ _ ⟨vfExec', calls, hRel, rfl⟩ a s' hRun
  · cases hRun
  · cases hRun
    exact ⟨_, rfl, vfExec', calls, hRel, rfl⟩

theorem allows_int64 (n : Int) : Allows H (int64 n) (int64 n) := .bind (.defined _) fun _ => .pure n

theorem allows_unaryApply (op : UnaryOp) (bn : Int) : Allows H (op.apply bn) (op.apply bn) := by
  cases op with
  | add1 | sub1 | negate => exact .bind (.assert _) fun _ => allows_int64 _
  | abs => exact .ite (.bind (.assert _) fun _ => allows_int64 _) (.pure bn)
  | not | notEqual0 => exact .pure _

theorem allows_binaryApply (op : BinaryOp) (bn1 bn2 : Int) : Allows H (op.apply bn1 bn2) (op.apply bn1 bn2) := by
  cases op with
  | add | sub => exact allows_int64 _
  | boolAnd | boolOr | numEqual | numEqualVerify | numNotEqual | lessThan | greaterThan | lessThanOrEqual |
    greaterThanOrEqual | min | max => exact .pure _

include hMinimal

theorem allows_execUnary (op : UnaryOp) : Allows H (execUnary minimal op) (execUnary minimal' op) :=
  .bind .stackSize fun _ => .bind (.errorIf _ _) fun _ => .bind (.stackTop _) fun _ => .bind (.scriptNum hMinimal _ _) fun _ =>
    .bind (allows_unaryApply op _) fun _ => .bind .popStack fun _ => .pushStack _

theorem allows_execBinary (op : BinaryOp) : Allows H (execBinary minimal op) (execBinary minimal' op) :=
  .bind .stackSize fun _ => .bind (.errorIf _ _) fun _ => .bind (.stackTop _) fun _ => .bind (.scriptNum hMinimal _ _) fun _ =>
    .bind (.stackTop _) fun _ => .bind (.scriptNum hMinimal _ _) fun _ => .bind (allows_binaryApply op _ _) fun _ =>
    .bind .popStack fun _ => .bind .popStack fun _ => .bind (.pushStack _) fun _ =>
    .ite (.bind (.stackTop _) fun _ => .ite .popStack (.throw _ _)) (.pure ())

theorem allows_execWithin : Allows H (execWithin minimal) (execWithin minimal') :=
  .bind .stackSize fun _ => .bind (.errorIf _ _) fun _ => .bind (.stackTop _) fun _ => .bind (.scriptNum hMinimal _ _) fun _ =>
    .bind (.stackTop _) fun _ => .bind (.scriptNum hMinimal _ _) fun _ =>
    .bind (.stackTop _) fun _ => .bind (.scriptNum hMinimal _ _) fun _ =>
    .bind .popStack fun _ => .bind .popStack fun _ => .bind .popStack fun _ => .pushStack _

theorem allows_execPick (roll : Bool) : Allows H (execPick minimal roll) (execPick minimal' roll) := by
  refine .bind .stackSize fun _ => .bind (.errorIf _ _) fun _ => .bind (.stackTop _) fun _ => .bind (.scriptNum hMinimal _ _) fun _ =>
    .bind .popStack fun _ => .bind .stackSize fun _ => .bind (.errorIf _ _) fun _ => .bind (.stackTop _) fun _ => ?_
  cases roll with
  | false => exact .pushStack _
  | true => exact .bind (.eraseStack _ _) fun _ => .pushStack _

end Instructions

section Flags

variable {H : Hidden} {flags flags' : UInt32} (hFewer : FewerFlags flags' flags)

include hFewer

theorem allows_checkSignatureEncoding (vchSig : Bytes) :
    Allows H (checkSignatureEncoding flags vchSig) (checkSignatureEncoding flags' vchSig) := by
  have hDer := Static.reading (Der.inside_isValidSignatureEncoding vchSig) .sigDer
  have hLow := static_isLowDERSignature vchSig
  exact .ite (.pure ()) (.bind (.onFlag hFewer _ (.static hDer) (.static hDer)) fun _ =>
    .bind (.onFlag hFewer _ (.static hLow) (.static hLow)) fun _ => .onFlag_errorIf hFewer _ _ _)

theorem allows_checkPubKeyEncoding (sigversion : SigVersion) (vchPubKey : Bytes) :
    Allows H (checkPubKeyEncoding flags sigversion vchPubKey) (checkPubKeyEncoding flags' sigversion vchPubKey) :=
  .bind (.onFlag_errorIf hFewer _ _ _) fun _ => .onFlag_errorIf hFewer _ _ _

end Flags

/-- The instructions that open, change or close a condition. -/
def Instruction.conditional : Instruction → Bool
  | .opIf _ => true
  | .opElse => true
  | .opEndIf => true
  | _ => false

namespace Env

variable {H : Hidden} (env : Env) {flags' : UInt32} (hFewer : FewerFlags flags' env.flags)

/-- The same call of `EvalScript` with other flags. -/
def withFlags (flags' : UInt32) : Env := { env with flags := flags' }

section

include hFewer

theorem fRequireMinimal_withFlags (hOn : (env.withFlags flags').fRequireMinimal = true) : env.fRequireMinimal = true :=
  hFewer.hasFlag hOn

theorem allows_execCheckLockTimeVerify :
    Allows H env.execCheckLockTimeVerify (env.withFlags flags').execCheckLockTimeVerify :=
  .onFlag hFewer _
    (.bind .stackSize fun _ => .bind (.static (.errorIf _ _)) fun _ => .bind (.stackTop _) fun _ =>
      .bind (.scriptNum _ _ _) fun _ => .bind (.static (.errorIf _ _)) fun _ => .static (.errorIf _ _))
    (.bind .stackSize fun _ => .bind (.errorIf _ _) fun _ => .bind (.stackTop _) fun _ =>
      .bind (.scriptNum (env.fRequireMinimal_withFlags hFewer) _ _) fun _ => .bind (.errorIf _ _) fun _ => .errorIf _ _)

theorem allows_execCheckSequenceVerify :
    Allows H env.execCheckSequenceVerify (env.withFlags flags').execCheckSequenceVerify :=
  .onFlag hFewer _
    (.bind .stackSize fun _ => .bind (.static (.errorIf _ _)) fun _ => .bind (.stackTop _) fun _ =>
      .bind (.scriptNum _ _ _) fun _ => .bind (.static (.errorIf _ _)) fun _ => .ite (.pure ()) (.static (.errorIf _ _)))
    (.bind .stackSize fun _ => .bind (.errorIf _ _) fun _ => .bind (.stackTop _) fun _ =>
      .bind (.scriptNum (env.fRequireMinimal_withFlags hFewer) _ _) fun _ => .bind (.errorIf _ _) fun _ =>
      .ite (.pure ()) (.errorIf _ _))

theorem allows_ifValue (fExec negated : Bool) :
    Allows H (env.ifValue fExec negated) ((env.withFlags flags').ifValue fExec negated) := by
  refine .ite ?_ (.pure false)
  exact .bind .stackSize fun _ => .bind (.errorIf _ _) fun _ => .bind (.stackTop _) fun _ =>
    .bind (.onFlag hFewer _ (.static (.bind (.errorIf _ _) fun _ => .errorIf _ _))
      (.bind (.errorIf _ _) fun _ => .errorIf _ _)) fun _ => .bind .popStack fun _ => .pure _

end

theorem allows_callCheckSig (vchSig vchPubKey : Bytes) (scriptCode : CScript) :
    Allows H (env.callCheckSig vchSig vchPubKey scriptCode)
      ((env.withFlags flags').callCheckSig vchSig vchPubKey scriptCode) := by
  rintro s _ ⟨vfExec, calls, hRel, rfl⟩ a s' hRun
  cases hRun
  exact ⟨_, rfl, vfExec, calls + 1, H.call hRel, rfl⟩

include hFewer

theorem allows_checkEncodings (vchSig vchPubKey : Bytes) :
    Allows H (env.checkEncodings vchSig vchPubKey) ((env.withFlags flags').checkEncodings vchSig vchPubKey) :=
  .bind (allows_checkSignatureEncoding hFewer _) fun _ => allows_checkPubKeyEncoding hFewer _ _

theorem allows_dropSignature (vchSig : Bytes) (scriptCode : CScript) :
    Allows H (env.dropSignature vchSig scriptCode) ((env.withFlags flags').dropSignature vchSig scriptCode) :=
  .ite (.bind (.onFlag_errorIf hFewer _ _ _) fun _ => .pure _) (.pure _)

theorem allows_execCheckSig (verify : Bool) :
    Allows H (env.execCheckSig verify) ((env.withFlags flags').execCheckSig verify) :=
  .bind .stackSize fun _ => .bind (.errorIf _ _) fun _ => .bind (.stackTop _) fun _ => .bind (.stackTop _) fun _ =>
    .get fun _ _ _ _ => .bind (env.allows_dropSignature hFewer _ _) fun _ =>
    .bind (env.allows_checkEncodings hFewer _ _) fun _ => .bind (env.allows_callCheckSig _ _ _) fun _ =>
    .bind (.onFlag_errorIf hFewer _ _ _) fun _ => .bind .popStack fun _ => .bind .popStack fun _ =>
    .bind (.pushStack _) fun _ => allows_execVerifySuffix _ _ _

theorem allows_dropSignatures (isig left k : Nat) (scriptCode : CScript) :
    Allows H (env.dropSignatures isig left k scriptCode) ((env.withFlags flags').dropSignatures isig left k scriptCode) := by
  induction left generalizing k scriptCode with
  | zero => exact .pure _
  | succ left ih =>
    exact .bind (.stackTop _) fun _ => .bind (env.allows_dropSignature hFewer _ _) fun _ => ih _ _

theorem allows_matchSignatures (scriptCode : CScript) (nKeysCount nSigsCount isig ikey : Nat) :
    Allows H (env.matchSignatures scriptCode nKeysCount nSigsCount isig ikey)
      ((env.withFlags flags').matchSignatures scriptCode nKeysCount nSigsCount isig ikey) := by
  induction nKeysCount generalizing nSigsCount isig ikey with
  | zero =>
    cases nSigsCount with
    | zero => exact .pure _
    | succ nSigsCount => exact .pure _
  | succ nKeysCount ih =>
    cases nSigsCount with
    | zero => exact .pure _
    | succ nSigsCount =>
      exact .bind (.stackTop _) fun _ => .bind (.stackTop _) fun _ => .bind (env.allows_checkEncodings hFewer _ _) fun _ =>
        .bind (env.allows_callCheckSig _ _ _) fun _ => .ite (.pure _) (ih _ _ _)

theorem allows_cleanUp (fSuccess : Bool) (i ikey2 : Nat) :
    Allows H (env.cleanUp fSuccess i ikey2) ((env.withFlags flags').cleanUp fSuccess i ikey2) := by
  induction i generalizing ikey2 with
  | zero => exact .pure ()
  | succ i ih =>
    exact .bind (.onFlag hFewer _
      (.ite (.bind (.stackTop _) fun _ => .static (.errorIf _ _)) (.pure ()))
      (.ite (.bind (.stackTop _) fun _ => .errorIf _ _) (.pure ()))) fun _ => .bind .popStack fun _ => ih _

theorem allows_execCheckMultiSig (verify : Bool) :
    Allows H (env.execCheckMultiSig verify) ((env.withFlags flags').execCheckMultiSig verify) :=
  have hNum := env.fRequireMinimal_withFlags hFewer
  .bind .stackSize fun _ => .bind (.errorIf _ _) fun _ => .bind (.stackTop _) fun _ => .bind (.scriptNum hNum _ _) fun _ =>
    .bind (.errorIf _ _) fun _ => .bind (.modify fun _ _ _ => rfl) fun _ => .get fun _ _ _ _ => .bind (.errorIf _ _) fun _ =>
    .bind .stackSize fun _ => .bind (.errorIf _ _) fun _ => .bind (.stackTop _) fun _ => .bind (.scriptNum hNum _ _) fun _ =>
    .bind (.errorIf _ _) fun _ => .bind .stackSize fun _ => .bind (.errorIf _ _) fun _ => .get fun _ _ _ _ =>
    .bind (env.allows_dropSignatures hFewer _ _ _ _) fun _ => .bind (env.allows_matchSignatures hFewer _ _ _ _ _) fun _ =>
    .bind (env.allows_cleanUp hFewer _ _ _) fun _ => .bind .stackSize fun _ => .bind (.errorIf _ _) fun _ =>
    .bind (.onFlag hFewer _ (.bind (.stackTop _) fun _ => .static (.errorIf _ _))
      (.bind (.stackTop _) fun _ => .errorIf _ _)) fun _ =>
    .bind .popStack fun _ => .bind (.pushStack _) fun _ => allows_execVerifySuffix _ _ _

/-- One case for each instruction that is not a conditional. -/
theorem allows_exec (fExec : Bool) (pc : CScript) {i : Instruction} (hPlain : i.conditional = false) :
    Allows H (env.exec fExec pc i) ((env.withFlags flags').exec fExec pc i) := by
  have hNum := env.fRequireMinimal_withFlags hFewer
  cases i with
  | number n => exact .pushStack _
  | nop => exact .pure ()
  | checkLockTimeVerify => exact env.allows_execCheckLockTimeVerify hFewer
  | checkSequenceVerify => exact env.allows_execCheckSequenceVerify hFewer
  | upgradableNop => exact .onFlag hFewer _ (.static (.throw _)) (.throw _ _)
  | opIf negated => cases hPlain
  | opElse => cases hPlain
  | opEndIf => cases hPlain
  | verify => exact allows_execVerify
  | opReturn => exact .throw _ _
  | toAltStack => exact allows_execToAltStack
  | fromAltStack => exact allows_execFromAltStack
  | stackOp op => exact allows_execStackOp op
  | pick => exact allows_execPick hNum false
  | roll => exact allows_execPick hNum true
  | equal verify => exact allows_execEqual verify
  | unary op => exact allows_execUnary hNum op
  | binary op => exact allows_execBinary hNum op
  | within => exact allows_execWithin hNum
  | hash op => exact allows_execHash op
  | codeSeparator => exact .modify fun _ _ _ => rfl
  | checkSig verify => exact env.allows_execCheckSig hFewer verify
  | checkMultiSig verify => exact env.allows_execCheckMultiSig hFewer verify
  | unknown => exact .throw _ _

theorem allows_screen (opcode : UInt8) (vchPushValue : Bytes) :
    Allows H (env.screen opcode vchPushValue) ((env.withFlags flags').screen opcode vchPushValue) :=
  .bind (.errorIf _ _) fun _ =>
    .bind (.ite (.bind (.modify fun _ _ _ => rfl) fun _ => .get fun _ _ _ _ => .errorIf _ _) (.pure ())) fun _ =>
    .bind (.errorIf _ _) fun _ => .onFlag_errorIf hFewer _ _ _

theorem allows_execPush (opcode : UInt8) (vchPushValue : Bytes) :
    Allows H (env.execPush opcode vchPushValue) ((env.withFlags flags').execPush opcode vchPushValue) := by
  have hAssert : Looks (assert (opcode ≤ OP_PUSHDATA4)) := .ite (.pure ()) fun _ _ _ hRun => by cases hRun
  exact .bind (.onFlag hFewer _ (.bind hAssert fun _ => .static (.errorIf _ _))
    (.bind (.assert _) fun _ => .errorIf _ _)) fun _ => .pushStack _

end Env

end BitcoinGpuMiner
