import BitcoinGpuMiner.Encoding.Der
import BitcoinGpuMiner.Script.Effects
import Mathlib.Data.List.Forall2

/-! # Signature operations

The tests of encodings look at nothing but their arguments, so each of them either does nothing or stops the script.
`OP_CHECKMULTISIG` walks over its arguments by position on the stack; here it walks over two lists.
-/

namespace BitcoinGpuMiner

set_option autoImplicit false

open Exec CScript Foundation ScriptValidation

theorem onFlag_errorIf {σ : Type} (flags flag : UInt32) (c : Prop) [Decidable c] (e : ScriptError) :
    (onFlag flags flag (errorIf c e) : EStateM Halt σ Unit) = errorIf (hasFlag flags flag = true ∧ c) e := by
  rw [onFlag, errorIf, errorIf]
  by_cases hFlag : hasFlag flags flag = true
  · simp only [hFlag, if_true, true_and]
  · rw [if_neg hFlag, if_neg fun hBoth => hFlag hBoth.1]

/-- Programs that do not look at the machine: they give a value or stop the script with an error. -/
def Exec.Static {α : Type} (p : Exec α) : Prop := (∃ a, p = pure a) ∨ ∃ e, p = throw (Halt.error e)

namespace Exec.Static

variable {α β : Type}

theorem pure (a : α) : Static (Pure.pure a : Exec α) := .inl ⟨a, rfl⟩

theorem throw (e : ScriptError) : Static (MonadExcept.throw (Halt.error e) : Exec α) := .inr ⟨e, rfl⟩

theorem errorIf (c : Prop) [Decidable c] (e : ScriptError) : Static (errorIf c e) := by
  rw [BitcoinGpuMiner.errorIf]
  split
  · exact throw e
  · exact pure ()

theorem onFlag (flags flag : UInt32) {p : Exec Unit} (h : Static p) : Static (onFlag flags flag p) := by
  rw [BitcoinGpuMiner.onFlag]
  split
  · exact h
  · exact pure ()

theorem bind {p : Exec α} {f : α → Exec β} (hFirst : Static p) (hRest : ∀ a, Static (f a)) : Static (p >>= f) := by
  obtain ⟨a, rfl⟩ | ⟨e, rfl⟩ := hFirst
  · exact hRest a
  · exact throw e

theorem reading {test : Reading Unit} {post : Unit → Prop} (h : Reading.Inside test post) (e : ScriptError) :
    Static (reading test e) := by
  cases test with
  | ok a => exact pure ()
  | error stop =>
    cases stop with
    | refused => exact throw e
    | outOfBounds => exact absurd rfl h.1

end Exec.Static

theorem Foundation.Ensures.static {α β : Type} {p : Exec β} {f : β → Exec α} {post : α → Machine → Prop}
    {stop : Halt → Machine → Prop} {m : Machine} (hStatic : Static p) (hStop : ∀ e, stop (.error e) m)
    (hRest : ∀ b, p = Pure.pure b → Ensures (f b) m post stop) : Ensures (p >>= f) m post stop := by
  obtain ⟨b, rfl⟩ | ⟨e, rfl⟩ := hStatic
  · exact hRest b rfl
  · exact hStop e

theorem static_isLowDERSignature (vchSig : Bytes) : Static (isLowDERSignature vchSig) := by
  refine .bind (.reading (Der.inside_isValidSignatureEncoding vchSig) _) fun _ => ?_
  have hInside := parseDerLax_inside vchSig.dropLast
  rw [CPubKey.checkLowS]
  cases hParse : parseDerLax vchSig.dropLast with
  | ok found => exact .errorIf _ _
  | error stop =>
    cases stop with
    | refused => exact .errorIf _ _
    | outOfBounds => exact absurd hParse hInside.1

/-- No signature makes the tests of its encoding read outside of it. -/
theorem static_checkSignatureEncoding (flags : UInt32) (vchSig : Bytes) :
    Static (checkSignatureEncoding flags vchSig) := by
  rw [checkSignatureEncoding]
  split
  · exact .pure ()
  · exact .bind (.onFlag _ _ (.reading (Der.inside_isValidSignatureEncoding vchSig) _)) fun _ =>
      .bind (.onFlag _ _ (static_isLowDERSignature vchSig)) fun _ => .onFlag _ _ (.errorIf _ _)

theorem static_checkPubKeyEncoding (flags : UInt32) (sigversion : SigVersion) (vchPubKey : Bytes) :
    Static (checkPubKeyEncoding flags sigversion vchPubKey) :=
  .bind (.onFlag _ _ (.errorIf _ _)) fun _ => .onFlag _ _ (.errorIf _ _)

namespace Env

variable (env : Env)

theorem static_dropSignature (vchSig : Bytes) (scriptCode : CScript) : Static (env.dropSignature vchSig scriptCode) := by
  rw [dropSignature]
  split
  · exact .bind (.onFlag _ _ (.errorIf _ _)) fun _ => .pure _
  · exact .pure _

theorem static_checkEncodings (vchSig vchPubKey : Bytes) : Static (env.checkEncodings vchSig vchPubKey) :=
  .bind (static_checkSignatureEncoding _ _) fun _ => static_checkPubKeyEncoding _ _ _

/-! ## One signature -/

/-- `OP_CHECKSIG` accepts a signature and a key for a script, with the answer of the checker. -/
structure ChecksSig (vchSig vchPubKey : Bytes) (code : CScript) (fSuccess : Bool) : Prop where
  encodings : env.checkEncodings vchSig vchPubKey = pure ()
  answer : ∃ scriptCode, env.dropSignature vchSig code = pure scriptCode ∧
    env.checker.checkSig vchSig vchPubKey scriptCode env.sigversion = fSuccess
  nullfail : hasFlag env.flags verifyNullfail = true → fSuccess = false → vchSig = []

/-- The stack behind an operation with the answer `success`. -/
def answerStack (verify success : Bool) (rest : List Bytes) : List Bytes :=
  if verify then rest else vchBool success :: rest

theorem execVerifySuffix_eq (verify success : Bool) (e : ScriptError) (m : Machine) :
    (do pushStack (vchBool success); execVerifySuffix verify success e) m =
      if verify = true ∧ success = false then .error (.error e) { m with stack := vchFalse :: m.stack }
      else .ok () { m with stack := answerStack verify success m.stack } := by
  cases verify <;> cases success <;> rfl

/-- What `OP_CHECKSIG` leaves behind if it completes. -/
def CheckSigDone (verify : Bool) (m m' : Machine) : Prop :=
  ∃ vchPubKey vchSig rest fSuccess, m.stack = vchPubKey :: vchSig :: rest ∧
    env.ChecksSig vchSig vchPubKey m.pbegincodehash fSuccess ∧ (verify = true → fSuccess = true) ∧
    m' = { m with stack := answerStack verify fSuccess rest, sigChecks := m.sigChecks + 1 }

/-- The part of `OP_CHECKSIG` behind the answer. -/
theorem checkSig_tail (verify : Bool) {vchPubKey vchSig : Bytes} {rest altstack : List Bytes} {vfExec : List Bool}
    {code : CScript} {ops checks : Nat} {success : Bool} {post : Unit → Machine → Prop}
    (hPost : (verify = true → success = true) →
      (hasFlag env.flags verifyNullfail = true → success = false → vchSig = []) →
      post () ⟨answerStack verify success rest, altstack, vfExec, code, ops, checks + 1⟩) :
    Ensures (do
      onFlag env.flags verifyNullfail (errorIf (success = false ∧ vchSig.length ≠ 0) .sigNullfail)
      popStack
      popStack
      pushStack (vchBool success)
      execVerifySuffix verify success .checksigverify)
      ⟨vchPubKey :: vchSig :: rest, altstack, vfExec, code, ops, checks + 1⟩ post
      (fun halt m' => (∃ e, halt = .error e) ∧ m'.sigChecks ≤ checks + 1) := by
  rw [onFlag_errorIf, errorIf]
  by_cases hNull : hasFlag env.flags verifyNullfail = true ∧ success = false ∧ vchSig.length ≠ 0
  · rw [if_pos hNull]
    exact ⟨⟨_, rfl⟩, Nat.le_refl _⟩
  · rw [if_neg hNull]
    change Ensures (do pushStack (vchBool success); execVerifySuffix verify success _)
      ⟨rest, altstack, vfExec, code, ops, checks + 1⟩ _ _
    rw [Ensures, execVerifySuffix_eq]
    by_cases hVerify : verify = true ∧ success = false
    · rw [if_pos hVerify]
      exact ⟨⟨_, rfl⟩, Nat.le_refl _⟩
    · rw [if_neg hVerify]
      apply hPost
      · intro hOn
        cases success with
        | true => rfl
        | false => exact absurd ⟨hOn, rfl⟩ hVerify
      · intro hFlag hFalse
        by_contra hSome
        exact hNull ⟨hFlag, hFalse, fun hLength => hSome (List.eq_nil_of_length_eq_zero hLength)⟩

theorem execCheckSig_ensures (verify : Bool) (m : Machine) : Ensures (env.execCheckSig verify) m
    (fun _ m' => env.CheckSigDone verify m m')
    (fun halt m' => (∃ e, halt = .error e) ∧ m'.sigChecks ≤ m.sigChecks + 1) := by
  obtain ⟨_ | ⟨vchPubKey, _ | ⟨vchSig, rest⟩⟩, altstack, vfExec, code, ops, checks⟩ := m
  · exact ⟨⟨_, rfl⟩, Nat.le_succ _⟩
  · exact ⟨⟨_, rfl⟩, Nat.le_succ _⟩
  · change Ensures (do
      let scriptCode ← env.dropSignature vchSig code
      env.checkEncodings vchSig vchPubKey
      let fSuccess ← env.callCheckSig vchSig vchPubKey scriptCode
      onFlag env.flags verifyNullfail (errorIf (fSuccess = false ∧ vchSig.length ≠ 0) .sigNullfail)
      popStack
      popStack
      pushStack (vchBool fSuccess)
      execVerifySuffix verify fSuccess .checksigverify) _ _ _
    obtain ⟨scriptCode, hCode⟩ | ⟨e, hCode⟩ := env.static_dropSignature vchSig code
    · obtain ⟨⟨⟩, hEnc⟩ | ⟨e, hEnc⟩ := env.static_checkEncodings vchSig vchPubKey
      · rw [hCode, hEnc]
        refine env.checkSig_tail verify ?_
        rintro hVerify hNull
        exact ⟨vchPubKey, vchSig, rest, _, rfl, ⟨hEnc, ⟨scriptCode, hCode, rfl⟩, hNull⟩, hVerify, rfl⟩
      · rw [hCode, hEnc]
        exact ⟨⟨e, rfl⟩, Nat.le_succ _⟩
    · rw [hCode]
      exact ⟨⟨e, rfl⟩, Nat.le_succ _⟩

/-! ## Several signatures -/

/-- The second loop of `OP_CHECKMULTISIG` on the lists of its keys and its signatures, the last pushed first. -/
def scan (scriptCode : CScript) : List Bytes → List Bytes → Exec Bool
  | _, [] => pure true
  | [], _ :: _ => pure false
  | vchPubKey :: keys, vchSig :: sigs => do
    env.checkEncodings vchSig vchPubKey
    let fOk ← env.callCheckSig vchSig vchPubKey scriptCode
    let left := if fOk then sigs else vchSig :: sigs
    if left.length > keys.length then pure false else scan scriptCode keys left

/-- Every signature in order belongs to a key, in order. -/
def Matches (scriptCode : CScript) (sigs keys : List Bytes) : Prop :=
  List.SublistForall₂
    (fun vchSig vchPubKey => env.checker.checkSig vchSig vchPubKey scriptCode env.sigversion = true) sigs keys

section Greedy

variable {α β : Type} {R : α → β → Prop} {a : α} {as : List α} {b : β} {bs : List β}

theorem length_le_of_sublistForall₂ (h : List.SublistForall₂ R as bs) : as.length ≤ bs.length := by
  obtain ⟨bs', hForall, hSub⟩ := List.sublistForall₂_iff.mp h
  rw [hForall.length_eq]
  exact hSub.length_le

theorem sublistForall₂_of_cons (h : List.SublistForall₂ R (a :: as) bs) : List.SublistForall₂ R as bs := by
  rw [List.sublistForall₂_iff] at h ⊢
  obtain ⟨bs', hForall, hSub⟩ := h
  cases hForall with
  | cons hRel hRest => exact ⟨_, hRest, (List.sublist_cons_self _ _).trans hSub⟩

/-- Taking the first element that fits is never wrong. -/
theorem sublistForall₂_cons_iff [Decidable (R a b)] : List.SublistForall₂ R (a :: as) (b :: bs) ↔
    if R a b then List.SublistForall₂ R as bs else List.SublistForall₂ R (a :: as) bs := by
  split
  case isTrue hRel =>
    constructor
    · intro h
      cases h with
      | cons _ hRest => exact hRest
      | cons_right hRest => exact sublistForall₂_of_cons hRest
    · exact List.SublistForall₂.cons hRel
  case isFalse hNot =>
    constructor
    · intro h
      cases h with
      | cons hRel _ => exact absurd hRel hNot
      | cons_right hRest => exact hRest
    · exact List.SublistForall₂.cons_right

end Greedy

/-- The loop finds out whether the signatures match keys in order, with at most one call for each key. -/
theorem scan_ensures (scriptCode : CScript) (keys sigs : List Bytes) (m : Machine)
    (hLength : sigs.length ≤ keys.length) : Ensures (env.scan scriptCode keys sigs) m
      (fun fSuccess m' => (fSuccess = true ↔ env.Matches scriptCode sigs keys) ∧
        ∃ calls ≤ keys.length, m' = { m with sigChecks := m.sigChecks + calls })
      (fun halt m' => (∃ e, halt = .error e) ∧ ∃ calls ≤ keys.length, m'.sigChecks = m.sigChecks + calls) := by
  induction keys generalizing sigs m with
  | nil =>
    cases sigs with
    | nil => exact .pure ⟨⟨fun _ => .nil, fun _ => rfl⟩, 0, Nat.le_refl _, rfl⟩
    | cons vchSig sigs => simp at hLength
  | cons vchPubKey keys ih =>
    cases sigs with
    | nil => exact .pure ⟨⟨fun _ => .nil, fun _ => rfl⟩, 0, Nat.zero_le _, rfl⟩
    | cons vchSig sigs =>
      rw [scan]
      obtain ⟨⟨⟩, hEnc⟩ | ⟨e, hEnc⟩ := env.static_checkEncodings vchSig vchPubKey
      · rw [hEnc]
        set fOk := env.checker.checkSig vchSig vchPubKey scriptCode env.sigversion with hOk
        change Ensures (if (if fOk = true then sigs else vchSig :: sigs).length > keys.length then pure false
          else env.scan scriptCode keys (if fOk = true then sigs else vchSig :: sigs))
          { m with sigChecks := m.sigChecks + 1 } _ _
        have hIff : env.Matches scriptCode (vchSig :: sigs) (vchPubKey :: keys) ↔
            env.Matches scriptCode (if fOk = true then sigs else vchSig :: sigs) keys := by
          rw [Matches, sublistForall₂_cons_iff, ← hOk]
          split <;> rfl
        refine .ite (fun hLong => .pure ?_) fun hShort => (ih _ _ (by omega)).mono ?_ ?_
        · have hNot : ¬ env.Matches scriptCode (vchSig :: sigs) (vchPubKey :: keys) := by
            intro hMatches
            have hLe := length_le_of_sublistForall₂ (hIff.mp hMatches)
            omega
          exact ⟨iff_of_false Bool.false_ne_true hNot, 1, by simp, rfl⟩
        · rintro fSuccess m' ⟨hAnswer, calls, hCalls, rfl⟩
          rw [hIff]
          refine ⟨hAnswer, 1 + calls, ?_, by rw [← Nat.add_assoc]⟩
          rw [List.length_cons]
          omega
        · rintro halt m' ⟨hHalt, calls, hCalls, hChecks⟩
          refine ⟨hHalt, 1 + calls, ?_, by rw [hChecks, ← Nat.add_assoc]⟩
          rw [List.length_cons]
          omega
      · rw [hEnc]
        exact ⟨⟨e, rfl⟩, 0, Nat.zero_le _, rfl⟩

theorem stackTop_of_cons {m : Machine} {i : Nat} {vch : Bytes} {rest : List Bytes}
    (h : vch :: rest <+: m.stack.drop i) : stackTop (i + 1) m = .ok vch m ∧ rest <+: m.stack.drop (i + 1) := by
  obtain ⟨tail, hTail⟩ := h
  have hAt : m.stack[i]? = some vch := by
    have hZero := congrArg (·[0]?) hTail
    simpa using hZero.symm
  refine ⟨by rw [stackTop, hAt], tail, ?_⟩
  rw [← List.drop_drop, ← hTail]
  rfl

/-- The positions on the stack walk over the two lists. -/
theorem matchSignatures_eq (scriptCode : CScript) (keys sigs : List Bytes) {isig ikey : Nat} (m : Machine)
    (hKeys : keys <+: m.stack.drop ikey) (hSigs : sigs <+: m.stack.drop isig) :
    env.matchSignatures scriptCode keys.length sigs.length (isig + 1) (ikey + 1) m = env.scan scriptCode keys sigs m := by
  induction keys generalizing sigs isig ikey m with
  | nil => cases sigs <;> rfl
  | cons vchPubKey keys ih =>
    cases sigs with
    | nil => rfl
    | cons vchSig sigs =>
      obtain ⟨hTopSig, hRestSigs⟩ := stackTop_of_cons hSigs
      obtain ⟨hTopKey, hRestKeys⟩ := stackTop_of_cons hKeys
      rw [List.length_cons, List.length_cons, matchSignatures, bind_ok hTopSig, bind_ok hTopKey, scan]
      obtain ⟨⟨⟩, hEnc⟩ | ⟨e, hEnc⟩ := env.static_checkEncodings vchSig vchPubKey
      · have hRun : env.checkEncodings vchSig vchPubKey m = .ok () m := by
          rw [hEnc]
          rfl
        have hCall : env.callCheckSig vchSig vchPubKey scriptCode m =
          .ok (env.checker.checkSig vchSig vchPubKey scriptCode env.sigversion)
            { m with sigChecks := m.sigChecks + 1 } := rfl
        rw [bind_ok hRun, bind_ok hRun, bind_ok hCall, bind_ok hCall]
        cases env.checker.checkSig vchSig vchPubKey scriptCode env.sigversion with
        | true =>
          change (if sigs.length > keys.length then (pure false : Exec Bool) else _) _ =
            (if sigs.length > keys.length then (pure false : Exec Bool) else _) _
          split
          · rfl
          · exact ih sigs _ hRestKeys hRestSigs
        | false =>
          change (if sigs.length + 1 > keys.length then (pure false : Exec Bool) else _) _ =
            (if sigs.length + 1 > keys.length then (pure false : Exec Bool) else _) _
          split
          · rfl
          · exact ih (vchSig :: sigs) _ hRestKeys hSigs
      · rw [hEnc]
        rfl

/-- The first loop on a list of signatures. -/
def dropAll (sigs : List Bytes) (scriptCode : CScript) : Exec CScript :=
  sigs.foldlM (fun scriptCode vchSig => env.dropSignature vchSig scriptCode) scriptCode

theorem static_dropAll (sigs : List Bytes) (scriptCode : CScript) : Static (env.dropAll sigs scriptCode) := by
  induction sigs generalizing scriptCode with
  | nil => exact .pure _
  | cons vchSig sigs ih =>
    rw [dropAll, List.foldlM_cons]
    exact .bind (env.static_dropSignature vchSig scriptCode) ih

theorem dropSignatures_eq (sigs : List Bytes) {isig k : Nat} (scriptCode : CScript) (m : Machine)
    (hSigs : sigs <+: m.stack.drop (isig + k)) :
    env.dropSignatures (isig + 1) sigs.length k scriptCode m = env.dropAll sigs scriptCode m := by
  induction sigs generalizing k scriptCode with
  | nil => rfl
  | cons vchSig sigs ih =>
    obtain ⟨hTop, hRest⟩ := stackTop_of_cons hSigs
    rw [show isig + k + 1 = isig + 1 + k by omega] at hTop
    rw [List.length_cons, dropSignatures, bind_ok hTop, dropAll, List.foldlM_cons]
    obtain ⟨code, hCode⟩ | ⟨e, hCode⟩ := env.static_dropSignature vchSig scriptCode
    · rw [hCode]
      exact ih code hRest
    · rw [hCode]
      rfl

/-- The test in front of each removal. -/
theorem cleanUp_test (fSuccess : Bool) (ikey2 : Nat) {m : Machine} {vch : Bytes} (hTop : stackTop 1 m = .ok vch m) :
    (onFlag env.flags verifyNullfail do
      if fSuccess = false ∧ ikey2 = 0 then errorIf ((← stackTop 1).length ≠ 0) .sigNullfail else pure ()) m =
      if hasFlag env.flags verifyNullfail = true ∧ (fSuccess = false ∧ ikey2 = 0) ∧ vch.length ≠ 0
      then .error (.error .sigNullfail) m else .ok () m := by
  rw [onFlag]
  by_cases hFlag : hasFlag env.flags verifyNullfail = true
  · by_cases hCond : fSuccess = false ∧ ikey2 = 0
    · rw [if_pos hFlag, if_pos hCond, bind_ok hTop, errorIf]
      by_cases hSome : vch.length ≠ 0
      · rw [if_pos hSome, if_pos ⟨hFlag, hCond, hSome⟩]
        rfl
      · rw [if_neg hSome, if_neg fun hAll => hSome hAll.2.2]
        rfl
    · rw [if_pos hFlag, if_neg hCond, if_neg fun hAll => hCond hAll.2.1]
      rfl
  · rw [if_neg hFlag, if_neg fun hAll => hFlag hAll.1]
    rfl

theorem dropSignatures_ensures (sigs : List Bytes) {isig : Nat} (code : CScript) (m : Machine)
    (hSigs : sigs <+: m.stack.drop isig) : Ensures (env.dropSignatures (isig + 1) sigs.length 0 code) m
      (fun scriptCode m' => env.dropAll sigs code = pure scriptCode ∧ m' = m)
      (fun halt m' => (∃ e, halt = .error e) ∧ m' = m) := by
  rw [Ensures, env.dropSignatures_eq sigs (k := 0) code m hSigs]
  obtain ⟨scriptCode, hCode⟩ | ⟨e, hCode⟩ := env.static_dropAll sigs code
  · rw [hCode]
    exact ⟨rfl, rfl⟩
  · rw [hCode]
    exact ⟨⟨e, rfl⟩, rfl⟩

theorem matchSignatures_ensures (scriptCode : CScript) (keys sigs : List Bytes) {isig ikey : Nat} (m : Machine)
    (hLength : sigs.length ≤ keys.length) (hKeys : keys <+: m.stack.drop ikey) (hSigs : sigs <+: m.stack.drop isig) :
    Ensures (env.matchSignatures scriptCode keys.length sigs.length (isig + 1) (ikey + 1)) m
      (fun fSuccess m' => (fSuccess = true ↔ env.Matches scriptCode sigs keys) ∧
        ∃ calls ≤ keys.length, m' = { m with sigChecks := m.sigChecks + calls })
      (fun halt m' => (∃ e, halt = .error e) ∧ ∃ calls ≤ keys.length, m'.sigChecks = m.sigChecks + calls) := by
  rw [Ensures, env.matchSignatures_eq scriptCode keys sigs m hKeys hSigs]
  exact env.scan_ensures scriptCode keys sigs m hLength

/-- The third loop removes all arguments; if the answer is false, `NULLFAIL` wants the signatures to be empty. -/
theorem cleanUp_ensures (fSuccess : Bool) (count ikey2 : Nat) (m : Machine) (hCount : count ≤ m.stack.length) :
    Ensures (env.cleanUp fSuccess count ikey2) m
      (fun _ m' => m' = { m with stack := m.stack.drop count } ∧
        (hasFlag env.flags verifyNullfail = true → fSuccess = false → ∀ vch ∈ (m.stack.take count).drop ikey2, vch = []))
      (fun halt m' => (∃ e, halt = .error e) ∧ m'.sigChecks = m.sigChecks) := by
  induction count generalizing ikey2 m with
  | zero =>
    refine .pure ⟨by rw [List.drop_zero], fun _ _ vch hMem => ?_⟩
    rw [List.take_zero, List.drop_nil] at hMem
    cases hMem
  | succ count ih =>
    obtain ⟨_ | ⟨vch, rest⟩, altstack, vfExec, code, ops, checks⟩ := m
    · cases hCount
    · have hTop : stackTop 1 ⟨vch :: rest, altstack, vfExec, code, ops, checks⟩ = .ok vch _ := rfl
      have hTest := env.cleanUp_test fSuccess ikey2 hTop
      rw [cleanUp]
      by_cases hBad : hasFlag env.flags verifyNullfail = true ∧ (fSuccess = false ∧ ikey2 = 0) ∧ vch.length ≠ 0
      · rw [if_pos hBad] at hTest
        exact .of_error (bind_error hTest) ⟨⟨_, rfl⟩, rfl⟩
      · rw [if_neg hBad] at hTest
        rw [Ensures, bind_ok hTest]
        refine (ih (ikey2 - 1) ⟨rest, altstack, vfExec, code, ops, checks⟩ (Nat.le_of_succ_le_succ hCount)).mono ?_ ?_
        · rintro _ m' ⟨rfl, hEmpty⟩
          refine ⟨rfl, fun hFlag hFalse => ?_⟩
          change ∀ x ∈ (vch :: rest.take count).drop ikey2, x = []
          cases ikey2 with
          | zero =>
            rw [List.drop_zero]
            refine List.forall_mem_cons.mpr ⟨?_, hEmpty hFlag hFalse⟩
            by_contra hSome
            exact hBad ⟨hFlag, ⟨hFalse, rfl⟩, fun hLength => hSome (List.eq_nil_of_length_eq_zero hLength)⟩
          | succ k => exact hEmpty hFlag hFalse
        · exact fun halt m' hHalt => hHalt

theorem exists_append_of_le {α : Type} {l : List α} {n : Nat} (h : n ≤ l.length) :
    ∃ front back, l = front ++ back ∧ front.length = n :=
  ⟨l.take n, l.drop n, (List.take_append_drop n l).symm, by rw [List.length_take, Nat.min_eq_left h]⟩

/-- The arguments of `OP_CHECKMULTISIG` as they lie on the stack, the top first. -/
structure MultiSigArgs where
  keyCount : Bytes
  keys : List Bytes
  sigCount : Bytes
  sigs : List Bytes
  dummy : Bytes
  rest : List Bytes

def MultiSigArgs.stack (args : MultiSigArgs) : List Bytes :=
  args.keyCount :: (args.keys ++ args.sigCount :: (args.sigs ++ args.dummy :: args.rest))

theorem MultiSigArgs.exists_of_length {stack : List Bytes} {n k : Nat} (hLength : 3 + n + k ≤ stack.length) :
    ∃ args : MultiSigArgs, stack = args.stack ∧ args.keys.length = n ∧ args.sigs.length = k := by
  rcases stack with _ | ⟨keyCount, stack⟩
  · rw [List.length_nil] at hLength
    omega
  rw [List.length_cons] at hLength
  obtain ⟨keys, stack, rfl, hKeys⟩ := exists_append_of_le (show n ≤ stack.length by omega)
  rw [List.length_append] at hLength
  rcases stack with _ | ⟨sigCount, stack⟩
  · rw [List.length_nil] at hLength
    omega
  rw [List.length_cons] at hLength
  obtain ⟨sigs, stack, rfl, hSigs⟩ := exists_append_of_le (show k ≤ stack.length by omega)
  rw [List.length_append] at hLength
  rcases stack with _ | ⟨dummy, rest⟩
  · rw [List.length_nil] at hLength
    omega
  exact ⟨⟨keyCount, keys, sigCount, sigs, dummy, rest⟩, rfl, hKeys, hSigs⟩

namespace MultiSigArgs

variable (args : MultiSigArgs)

theorem drop_keys : args.stack.drop 1 = args.keys ++ args.sigCount :: (args.sigs ++ args.dummy :: args.rest) := rfl

theorem drop_sigs : args.stack.drop (2 + args.keys.length) = args.sigs ++ args.dummy :: args.rest := by
  rw [show 2 + args.keys.length = 1 + (args.keys.length + 1) by omega, ← List.drop_drop, drop_keys, ← List.drop_drop,
    List.drop_left]
  rfl

theorem drop_dummy : args.stack.drop (2 + args.keys.length + args.sigs.length) = args.dummy :: args.rest := by
  rw [← List.drop_drop, drop_sigs, List.drop_left]

theorem take_drop_sigs :
    (args.stack.take (2 + args.keys.length + args.sigs.length)).drop (args.keys.length + 2) = args.sigs := by
  rw [Nat.add_comm args.keys.length 2, List.drop_take, drop_sigs, Nat.add_sub_cancel_left, List.take_left]

theorem getElem?_sigCount : args.stack[args.keys.length + 1]? = some args.sigCount := by
  rw [stack, List.getElem?_cons_succ, List.getElem?_append_right (Nat.le_refl _), Nat.sub_self]
  rfl

theorem length_stack : args.stack.length = 3 + args.keys.length + args.sigs.length + args.rest.length := by
  simp only [stack, List.length_cons, List.length_append]
  omega

end MultiSigArgs

/-- What `OP_CHECKMULTISIG` has found out and left behind if it completes. -/
structure MultiSigDone (verify : Bool) (args : MultiSigArgs) (fSuccess : Bool) (m m' : Machine) : Prop where
  stack : m.stack = args.stack
  keyCount : CScriptNum.ofVch args.keyCount env.fRequireMinimal CScriptNum.defaultMaxNumSize = .ok args.keys.length
  keys_le : args.keys.length ≤ 20
  sigCount : CScriptNum.ofVch args.sigCount env.fRequireMinimal CScriptNum.defaultMaxNumSize = .ok args.sigs.length
  sigs_le : args.sigs.length ≤ args.keys.length
  answer : ∃ scriptCode, env.dropAll args.sigs m.pbegincodehash = pure scriptCode ∧
    (fSuccess = true ↔ env.Matches scriptCode args.sigs args.keys)
  nullfail : hasFlag env.flags verifyNullfail = true → fSuccess = false → ∀ vchSig ∈ args.sigs, vchSig = []
  nulldummy : hasFlag env.flags verifyNulldummy = true → args.dummy = []
  verified : verify = true → fSuccess = true
  left : ∃ calls ≤ args.keys.length, m' = { m with
    stack := answerStack verify fSuccess args.rest
    nOpCount := m.nOpCount + args.keys.length
    sigChecks := m.sigChecks + calls }
  ops : m.nOpCount + args.keys.length ≤ maxOpsPerScript

/-- The calls of the checker that an operation has made when it stops are paid for by the number of keys. -/
def MultiSigStopped (m : Machine) (halt : Halt) (m' : Machine) : Prop :=
  halt.Expected ∧ ∃ calls, m'.sigChecks = m.sigChecks + calls ∧ (calls = 0 ∨ ∃ vch rest, ∃ n : Nat, m.stack = vch :: rest ∧
    CScriptNum.ofVch vch env.fRequireMinimal CScriptNum.defaultMaxNumSize = .ok n ∧ calls ≤ n ∧ n ≤ 20)

/-- The test of the superfluous argument. -/
theorem nulldummy_test {m : Machine} {vch : Bytes} (hTop : stackTop 1 m = .ok vch m) :
    (onFlag env.flags verifyNulldummy do errorIf ((← stackTop 1).length ≠ 0) .sigNulldummy) m =
      (errorIf (hasFlag env.flags verifyNulldummy = true ∧ vch.length ≠ 0) .sigNulldummy : Exec Unit) m := by
  rw [← onFlag_errorIf, onFlag, onFlag]
  split
  · rw [bind_ok hTop]
  · rfl

/-- The three loops and what follows them. -/
theorem multiSig_loops (verify : Bool) (args : MultiSigArgs) {altstack : List Bytes} {vfExec : List Bool} {code : CScript}
    {ops checks : Nat} {post : Unit → Machine → Prop} {stop : Halt → Machine → Prop}
    (hLe : args.sigs.length ≤ args.keys.length)
    (hStop : ∀ e m', ∀ calls ≤ args.keys.length, m'.sigChecks = checks + calls → stop (.error e) m')
    (hPost : ∀ scriptCode fSuccess, ∀ calls ≤ args.keys.length, env.dropAll args.sigs code = pure scriptCode →
      (fSuccess = true ↔ env.Matches scriptCode args.sigs args.keys) →
      (hasFlag env.flags verifyNullfail = true → fSuccess = false → ∀ vchSig ∈ args.sigs, vchSig = []) →
      (hasFlag env.flags verifyNulldummy = true → args.dummy = []) → (verify = true → fSuccess = true) →
      post () ⟨answerStack verify fSuccess args.rest, altstack, vfExec, code, ops, checks + calls⟩) :
    Ensures (do
      let scriptCode ← env.dropSignatures (3 + args.keys.length) args.sigs.length 0 code
      let fSuccess ← env.matchSignatures scriptCode args.keys.length args.sigs.length (3 + args.keys.length) 2
      env.cleanUp fSuccess (2 + args.keys.length + args.sigs.length) (args.keys.length + 2)
      errorIf ((← stackSize) < 1) .invalidStackOperation
      onFlag env.flags verifyNulldummy do
        errorIf ((← stackTop 1).length ≠ 0) .sigNulldummy
      popStack
      pushStack (vchBool fSuccess)
      execVerifySuffix verify fSuccess .checkmultisigverify)
      ⟨args.stack, altstack, vfExec, code, ops, checks⟩ post stop := by
  have hKeys : args.keys <+: args.stack.drop 1 := ⟨_, args.drop_keys.symm⟩
  have hSigs : args.sigs <+: args.stack.drop (2 + args.keys.length) := ⟨_, args.drop_sigs.symm⟩
  have hCount : 2 + args.keys.length + args.sigs.length ≤ args.stack.length := by
    rw [args.length_stack]
    omega
  rw [show 3 + args.keys.length = 2 + args.keys.length + 1 by omega]
  refine .bind ((env.dropSignatures_ensures args.sigs code ⟨args.stack, altstack, vfExec, code, ops, checks⟩ hSigs).mono
    (fun _ _ hDone => hDone) ?_) ?_
  · rintro _ _ ⟨⟨e, rfl⟩, rfl⟩
    exact hStop e _ 0 (Nat.zero_le _) rfl
  rintro scriptCode _ ⟨hCode, rfl⟩
  refine .bind ((env.matchSignatures_ensures scriptCode args.keys args.sigs
    ⟨args.stack, altstack, vfExec, code, ops, checks⟩ hLe hKeys hSigs).mono (fun _ _ hDone => hDone) ?_) ?_
  · rintro _ m' ⟨⟨e, rfl⟩, calls, hCalls, hChecks⟩
    exact hStop e m' calls hCalls hChecks
  rintro fSuccess _ ⟨hAnswer, calls, hCalls, rfl⟩
  refine .bind ((env.cleanUp_ensures fSuccess _ (args.keys.length + 2)
    ⟨args.stack, altstack, vfExec, code, ops, checks + calls⟩ hCount).mono (fun _ _ hDone => hDone) ?_) ?_
  · rintro _ m' ⟨⟨e, rfl⟩, hChecks⟩
    exact hStop e m' calls hCalls hChecks
  rintro _ _ ⟨rfl, hNullfail⟩
  rw [args.take_drop_sigs] at hNullfail
  rw [args.drop_dummy]
  refine .stackSize (.errorIf (fun _ => hStop _ _ calls hCalls rfl) fun _ => ?_)
  have hTop : stackTop 1 ⟨args.dummy :: args.rest, altstack, vfExec, code, ops, checks + calls⟩ = .ok args.dummy _ := rfl
  have hTest := env.nulldummy_test hTop
  rw [errorIf] at hTest
  by_cases hDummy : hasFlag env.flags verifyNulldummy = true ∧ args.dummy.length ≠ 0
  · rw [if_pos hDummy] at hTest
    exact .of_error (bind_error hTest) (hStop _ _ calls hCalls rfl)
  rw [if_neg hDummy] at hTest
  refine .bind (show Ensures _ _ (fun _ m' => m' = _) _ from .of_ok hTest rfl) ?_
  rintro _ _ rfl
  change Ensures (do pushStack (vchBool fSuccess); execVerifySuffix verify fSuccess _)
    ⟨args.rest, altstack, vfExec, code, ops, checks + calls⟩ _ _
  rw [Ensures, execVerifySuffix_eq]
  by_cases hVerify : verify = true ∧ fSuccess = false
  · rw [if_pos hVerify]
    exact hStop _ _ calls hCalls rfl
  · rw [if_neg hVerify]
    refine hPost scriptCode fSuccess calls hCalls hCode hAnswer hNullfail ?_ ?_
    · intro hFlag
      by_contra hSome
      exact hDummy ⟨hFlag, fun hLength => hSome (List.eq_nil_of_length_eq_zero hLength)⟩
    · intro hOn
      by_contra hFalse
      exact hVerify ⟨hOn, Bool.eq_false_of_not_eq_true hFalse⟩

theorem multiSig_done (verify : Bool) (args : MultiSigArgs) (m : Machine) (hStack : m.stack = args.stack)
    (hKeys : CScriptNum.ofVch args.keyCount env.fRequireMinimal CScriptNum.defaultMaxNumSize = .ok args.keys.length)
    (hTwenty : args.keys.length ≤ 20)
    (hSigs : CScriptNum.ofVch args.sigCount env.fRequireMinimal CScriptNum.defaultMaxNumSize = .ok args.sigs.length)
    (hLe : args.sigs.length ≤ args.keys.length) (hOps : m.nOpCount + args.keys.length ≤ maxOpsPerScript) :
    Ensures (do
      let scriptCode ← env.dropSignatures (3 + args.keys.length) args.sigs.length 0 m.pbegincodehash
      let fSuccess ← env.matchSignatures scriptCode args.keys.length args.sigs.length (3 + args.keys.length) 2
      env.cleanUp fSuccess (2 + args.keys.length + args.sigs.length) (args.keys.length + 2)
      errorIf ((← stackSize) < 1) .invalidStackOperation
      onFlag env.flags verifyNulldummy do
        errorIf ((← stackTop 1).length ≠ 0) .sigNulldummy
      popStack
      pushStack (vchBool fSuccess)
      execVerifySuffix verify fSuccess .checkmultisigverify)
      { m with nOpCount := m.nOpCount + args.keys.length }
      (fun _ m' => ∃ args fSuccess, env.MultiSigDone verify args fSuccess m m') (env.MultiSigStopped m) := by
  obtain ⟨stack, altstack, vfExec, code, ops, checks⟩ := m
  change stack = args.stack at hStack
  subst hStack
  refine env.multiSig_loops verify args hLe ?_ ?_
  · intro e m' calls hCalls hChecks
    exact ⟨.inl ⟨e, rfl⟩, calls, hChecks, .inr ⟨_, _, _, rfl, hKeys, hCalls, hTwenty⟩⟩
  · intro scriptCode fSuccess calls hCalls hCode hAnswer hNullfail hNulldummy hVerify
    exact ⟨args, fSuccess, rfl, hKeys, hTwenty, hSigs, hLe, ⟨scriptCode, hCode, hAnswer⟩, hNullfail, hNulldummy, hVerify,
      ⟨calls, hCalls, rfl⟩, hOps⟩

theorem execCheckMultiSig_ensures (verify : Bool) (m : Machine) : Ensures (env.execCheckMultiSig verify) m
    (fun _ m' => ∃ args fSuccess, env.MultiSigDone verify args fSuccess m m') (env.MultiSigStopped m) := by
  have hStop : ∀ e ops, env.MultiSigStopped m (.error e) { m with nOpCount := ops } := fun e ops =>
    ⟨.inl ⟨e, rfl⟩, 0, rfl, .inl rfl⟩
  have hThrown : ∀ reason ops, env.MultiSigStopped m (.thrown (.scriptNum reason)) { m with nOpCount := ops } :=
    fun e ops => ⟨.inr ⟨e, rfl⟩, 0, rfl, .inl rfl⟩
  rw [execCheckMultiSig]
  refine .stackSize (.errorIf (fun _ => hStop _ _) fun hSize => .stackTop (by omega) fun vch hTop => .scriptNum
    (fun reason _ => hThrown _ _) fun n hNum => ?_)
  rw [getint_of_ofVch hNum]
  refine .errorIf (fun _ => hStop _ _) fun hRange => .modify (.get (.errorIf (fun _ => hStop _ _) fun hOps =>
    .stackSize (.errorIf (fun _ => hStop _ _) fun hSize => ?_)))
  change ¬ m.stack.length < 2 + n.toNat at hSize
  nth_rewrite 1 [Nat.add_comm 2 n.toNat]
  refine .stackTop (show n.toNat + 1 < m.stack.length by omega) fun vch' hTop' => .scriptNum
    (fun reason _ => hThrown _ _) fun k hNum' => ?_
  rw [getint_of_ofVch hNum']
  refine .errorIf (fun _ => hStop _ _) fun hRange' => .stackSize (.errorIf (fun _ => hStop _ _) fun hLong => .get ?_)
  obtain ⟨args, hStack, hKeys, hSigs⟩ := MultiSigArgs.exists_of_length (Nat.not_lt.mp hLong)
  obtain rfl : (args.keys.length : Int) = n := by omega
  obtain rfl : (args.sigs.length : Int) = k := by omega
  have hCount : args.keyCount = vch := by
    rw [hStack] at hTop
    exact Option.some.inj hTop
  have hCount' : args.sigCount = vch' := by
    have hAt : args.stack[args.keys.length + 1]? = some vch' := hStack ▸ hTop'
    rw [args.getElem?_sigCount] at hAt
    exact Option.some.inj hAt
  subst hCount hCount'
  exact env.multiSig_done verify args m hStack hNum (by omega) hNum' (by omega) (Nat.not_lt.mp hOps)

/-- A completed `OP_CHECKMULTISIG` has taken its arguments from the stack and has left its answer: whether the signatures
belong, in order, to some of the keys, for the script without the signatures. The answer is right although the loop
never goes back to a key, and it has cost no more calls than there are keys. -/
theorem execCheckMultiSig_matches_in_order (verify : Bool) (m m' : Machine)
    (hRun : env.execCheckMultiSig verify m = .ok () m') :
    ∃ (args : MultiSigArgs) (fSuccess : Bool) (scriptCode : CScript), m.stack = args.stack ∧
      CScriptNum.ofVch args.keyCount env.fRequireMinimal CScriptNum.defaultMaxNumSize = .ok args.keys.length ∧
      CScriptNum.ofVch args.sigCount env.fRequireMinimal CScriptNum.defaultMaxNumSize = .ok args.sigs.length ∧
      args.sigs.length ≤ args.keys.length ∧ args.keys.length ≤ 20 ∧
      env.dropAll args.sigs m.pbegincodehash = pure scriptCode ∧
      (fSuccess = true ↔ ∃ chosen, List.Sublist chosen args.keys ∧
        List.Forall₂ (fun vchSig vchPubKey => env.checker.checkSig vchSig vchPubKey scriptCode env.sigversion = true)
          args.sigs chosen) ∧
      m'.stack = answerStack verify fSuccess args.rest ∧ (verify = true → fSuccess = true) ∧
      m'.sigChecks ≤ m.sigChecks + args.keys.length := by
  obtain ⟨args, fSuccess, hDone⟩ := (env.execCheckMultiSig_ensures verify m).ok hRun
  obtain ⟨scriptCode, hCode, hAnswer⟩ := hDone.answer
  obtain ⟨calls, hCalls, hLeft⟩ := hDone.left
  refine ⟨args, fSuccess, scriptCode, hDone.stack, hDone.keyCount, hDone.sigCount, hDone.sigs_le, hDone.keys_le, hCode, ?_,
    ?_, hDone.verified, ?_⟩
  · rw [hAnswer, Matches, List.sublistForall₂_iff]
    simp only [and_comm]
  · rw [hLeft]
  · rw [hLeft]
    exact Nat.add_le_add_left hCalls _

/-- Two signatures against three keys, of which the second has none. -/
theorem execCheckMultiSig_matches_in_order_two_of_three :
    let env : Env := ⟨0, ⟨fun vchSig vchPubKey _ _ => vchSig == vchPubKey, fun _ => false, fun _ => false⟩, .base⟩
    let m : Machine := ⟨[[3], [7], [8], [9], [2], [7], [9], [], [5]], [], [], [], 0, 0⟩
    ∃ m', env.execCheckMultiSig false m = .ok () m' ∧ m'.stack = [[1], [5]] ∧
      ∃ args : MultiSigArgs, m.stack = args.stack ∧ m'.sigChecks ≤ m.sigChecks + args.keys.length := by
  intro env m
  have hAnswer : (match env.execCheckMultiSig false m with
    | .ok _ m' => m'.stack
    | .error _ _ => []) = [[1], [5]] := by decide +kernel
  cases hRun : env.execCheckMultiSig false m with
  | error halt m' =>
    rw [hRun] at hAnswer
    cases hAnswer
  | ok a m' =>
    rw [hRun] at hAnswer
    obtain ⟨args, _, _, hStack, _, _, _, _, _, _, _, _, hCalls⟩ := execCheckMultiSig_matches_in_order env false m m' hRun
    exact ⟨m', rfl, hAnswer, args, hStack, hCalls⟩

end Env

end BitcoinGpuMiner
