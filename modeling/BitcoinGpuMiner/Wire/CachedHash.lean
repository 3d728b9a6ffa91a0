import BitcoinGpuMiner.Foundation.Transitions
import BitcoinGpuMiner.Wire.RoundTrip

/-! # The hashes a transaction object keeps

`_hash` and `_witnessHash` are filled by the first call that needs them and never emptied again. A null hash
stands for one that has not been computed. They agree with the contents as long as the object is not read into
after a call, and `GetWitnessHash` copies `_hash` even if it has not been computed.
-/

namespace BitcoinGpuMiner

open Foundation

set_option autoImplicit false

structure TransactionObject where
  contents : NetMessageTransaction
  hash : Uint256
  witnessHash : Uint256

/-- The calls on an object. If reading throws, `left` is what it has left of the contents by then. -/
inductive TransactionCall where
  | unserialize (stale : Nat → UInt8) (allowWitness : Bool) (stream : Cursor UInt8) (left : NetMessageTransaction)
  | getHash
  | getWitnessHash

namespace TransactionObject

/-- The default constructor. -/
def fresh : TransactionObject := ⟨⟨[], [], 2, 0⟩, Uint256.null, Uint256.null⟩

def contentsAfter (object : TransactionObject) (stale : Nat → UInt8) (allowWitness : Bool) (stream : Cursor UInt8)
    (left : NetMessageTransaction) : NetMessageTransaction :=
  match NetMessageTransaction.unserializeOver stale allowWitness object.contents.vout stream with
  | .ok (tx, _) => tx
  | .error _ => left

def unserialize (object : TransactionObject) (stale : Nat → UInt8) (allowWitness : Bool) (stream : Cursor UInt8)
    (left : NetMessageTransaction) : TransactionObject :=
  { object with contents := object.contentsAfter stale allowWitness stream left }

def getHash (object : TransactionObject) : TransactionObject × Uint256 :=
  if !object.hash.isNull then (object, object.hash)
  else
    let hash := Sha256.doubleHash256 (object.contents.serialize false)
    ({ object with hash := hash }, hash)

def getWitnessHash (object : TransactionObject) : TransactionObject × Uint256 :=
  if !object.witnessHash.isNull then (object, object.witnessHash)
  else if !object.contents.hasWitness then ({ object with witnessHash := object.hash }, object.hash)
  else
    let hash := Sha256.doubleHash256 (object.contents.serialize true)
    ({ object with witnessHash := hash }, hash)

def after (object : TransactionObject) : TransactionCall → TransactionObject
  | .unserialize stale allowWitness stream left => object.unserialize stale allowWitness stream left
  | .getHash => object.getHash.1
  | .getWitnessHash => object.getWitnessHash.1

/-- What the caches may hold if they are never to be noticed. -/
structure Agrees (object : TransactionObject) : Prop where
  hash : object.hash = Uint256.null ∨ object.hash = Sha256.doubleHash256 (object.contents.serialize false)
  witnessHash : object.witnessHash = Uint256.null ∨
    object.witnessHash = Sha256.doubleHash256 (object.contents.serialize true)

/-- A call gives the right answer and leaves nothing behind that a later one could notice. -/
def Transparent (object : TransactionObject) (call : TransactionCall) : Prop :=
  (object.after call).Agrees ∧
    match call with
    | .unserialize .. => True
    | .getHash => object.getHash.2 = Sha256.doubleHash256 (object.contents.serialize false)
    | .getWitnessHash => object.getWitnessHash.2 = Sha256.doubleHash256 (object.contents.serialize true)

/-- Whether the caches are in order for the call. -/
def Fits (object : TransactionObject) : TransactionCall → Prop
  | .unserialize stale allowWitness stream left =>
    let contents := object.contentsAfter stale allowWitness stream left
    (object.hash = Uint256.null ∨ object.hash = Sha256.doubleHash256 (contents.serialize false)) ∧
      (object.witnessHash = Uint256.null ∨ object.witnessHash = Sha256.doubleHash256 (contents.serialize true))
  | .getHash => True
  | .getWitnessHash => object.witnessHash ≠ Uint256.null ∨ object.contents.hasWitness = true ∨
      object.hash = Sha256.doubleHash256 (object.contents.serialize false)

section Call

variable {object : TransactionObject}

theorem getHash_of_null (hNull : object.hash.isNull = true) : object.getHash =
    ({ object with hash := Sha256.doubleHash256 (object.contents.serialize false) },
      Sha256.doubleHash256 (object.contents.serialize false)) := by
  simp only [getHash, hNull, Bool.not_true, Bool.false_eq_true, if_false]

theorem getHash_of_agrees (hAgrees : object.Agrees) : object.getHash.1.Agrees ∧
    object.getHash.2 = Sha256.doubleHash256 (object.contents.serialize false) := by
  cases hNull : object.hash.isNull with
  | true =>
    rw [getHash_of_null hNull]
    dsimp only
    exact ⟨⟨.inr rfl, hAgrees.witnessHash⟩, rfl⟩
  | false =>
    simp only [getHash, hNull, Bool.not_false, if_true]
    exact ⟨hAgrees, hAgrees.hash.resolve_left (Uint256.isNull_iff _ |>.not.mp (Bool.eq_false_iff.mp hNull))⟩

theorem getWitnessHash_of_witness (hNull : object.witnessHash.isNull = true)
    (hWitness : object.contents.hasWitness = true) : object.getWitnessHash =
      ({ object with witnessHash := Sha256.doubleHash256 (object.contents.serialize true) },
        Sha256.doubleHash256 (object.contents.serialize true)) := by
  simp only [getWitnessHash, hNull, hWitness, Bool.not_true, Bool.false_eq_true, if_false]

theorem getWitnessHash_of_noWitness (hNull : object.witnessHash.isNull = true)
    (hWitness : object.contents.hasWitness = false) :
    object.getWitnessHash = ({ object with witnessHash := object.hash }, object.hash) := by
  simp only [getWitnessHash, hNull, hWitness, Bool.not_true, Bool.false_eq_true, if_false, Bool.not_false, if_true]

theorem getWitnessHash_iff (hAgrees : object.Agrees) : (object.getWitnessHash.1.Agrees ∧
      object.getWitnessHash.2 = Sha256.doubleHash256 (object.contents.serialize true)) ↔
    object.Fits .getWitnessHash := by
  cases hNull : object.witnessHash.isNull with
  | true =>
    cases hWitness : object.contents.hasWitness with
    | true =>
      rw [getWitnessHash_of_witness hNull hWitness]
      dsimp only
      exact iff_of_true ⟨⟨hAgrees.hash, .inr rfl⟩, rfl⟩ (.inr (.inl hWitness))
    | false =>
      -- the copy of `_hash` is right only if that one is filled
      have hSame := NetMessageTransaction.serialize_of_noWitness hWitness
      rw [getWitnessHash_of_noWitness hNull hWitness, hSame]
      constructor
      · exact fun hBoth => .inr (.inr hBoth.2)
      · rintro (hCached | hHas | hFilled)
        · exact absurd ((Uint256.isNull_iff _).mp hNull) hCached
        · rw [hWitness] at hHas
          cases hHas
        · refine ⟨⟨hAgrees.hash, .inr ?_⟩, hFilled⟩
          rw [hSame]
          exact hFilled
  | false =>
    have hCached := (Uint256.isNull_iff _).not.mp (Bool.eq_false_iff.mp hNull)
    simp only [getWitnessHash, hNull, Bool.not_false, if_true]
    exact iff_of_true ⟨hAgrees, hAgrees.witnessHash.resolve_left hCached⟩ (.inl hCached)

theorem Agrees.transparent_iff (hAgrees : object.Agrees) (call : TransactionCall) :
    object.Transparent call ↔ object.Fits call := by
  cases call with
  | unserialize stale allowWitness stream left =>
    constructor
    · exact fun hTransparent => ⟨hTransparent.1.hash, hTransparent.1.witnessHash⟩
    · exact fun hFits => ⟨⟨hFits.1, hFits.2⟩, trivial⟩
  | getHash => exact iff_of_true (getHash_of_agrees hAgrees) trivial
  | getWitnessHash => exact getWitnessHash_iff hAgrees

end Call

/-- In every sequence of calls that find the caches in order, each answer is that of the current contents. -/
theorem agrees_and_transparent_iff {object : TransactionObject}
    (hRun : Reaches (fun object call => some (after object call)) Fits fresh object) :
    object.Agrees ∧ ∀ call, object.Transparent call ↔ object.Fits call := by
  have hAgrees : object.Agrees := by
    refine hRun.invariant ⟨.inl rfl, .inl rfl⟩ ?_
    intro object call object' hAgrees hFits hEq
    cases hEq
    exact ((hAgrees.transparent_iff call).mpr hFits).1
  exact ⟨hAgrees, hAgrees.transparent_iff⟩

/-! Two transactions without witnesses, read from what is written for them. -/

namespace CachedExample

def first : NetMessageTransaction := ⟨[⟨OutPoint.null, [1], 2, []⟩], [], 1, 6⟩

def second : NetMessageTransaction := ⟨[⟨OutPoint.null, [2], 2, []⟩], [⟨5, [4]⟩], 1, 6⟩

def reading (tx : NetMessageTransaction) : TransactionCall :=
  .unserialize (fun _ => 0) true ⟨tx.serialize true, 0, false⟩ tx

theorem after_reading {object : TransactionObject} (hVout : object.contents.vout = []) {tx : NetMessageTransaction}
    (hEncodable : tx.Encodable) (hVin : tx.vin ≠ []) (hBound : (tx.serialize true).length < 2 ^ 32) :
    object.after (reading tx) = ⟨tx, object.hash, object.witnessHash⟩ := by
  have hReads : Reads (NetMessageTransaction.unserialize (fun _ => 0) true) (tx.serialize true) tx :=
    hEncodable.reads_true hVin
  rw [reading, after, unserialize, contentsAfter, hVout, ← NetMessageTransaction.unserialize,
    hReads.run_all hBound]

theorem after_getHash (tx : NetMessageTransaction) : after ⟨tx, Uint256.null, Uint256.null⟩ .getHash =
    ⟨tx, Sha256.doubleHash256 (tx.serialize false), Uint256.null⟩ := by
  rw [after, getHash_of_null (by dsimp only; decide)]

theorem hashes : Sha256.doubleHash256 (first.serialize false) ≠ Sha256.doubleHash256 (second.serialize false) ∧
    (Sha256.doubleHash256 (first.serialize false)).isNull = false ∧
    Sha256.doubleHash256 (second.serialize true) ≠ Uint256.null := by
  decide +kernel

def twice : TransactionObject := [reading first, .getHash, reading second].foldl after fresh

def once : TransactionObject := [reading second].foldl after fresh

theorem twice_eq : twice = ⟨second, Sha256.doubleHash256 (first.serialize false), Uint256.null⟩ := by
  have hFirst : fresh.after (reading first) = ⟨first, Uint256.null, Uint256.null⟩ :=
    after_reading rfl (by decide) (by decide) (by decide)
  rw [twice, List.foldl_cons, List.foldl_cons, List.foldl_cons, List.foldl_nil, hFirst, after_getHash]
  exact after_reading rfl (by decide) (by decide) (by decide)

theorem once_eq : once = ⟨second, Uint256.null, Uint256.null⟩ :=
  after_reading rfl (by decide) (by decide) (by decide)

end CachedExample

theorem agrees_and_transparent_iff_once : (CachedExample.once.after .getHash).Transparent .getWitnessHash := by
  have hFits : Fits fresh (CachedExample.reading CachedExample.second) := ⟨.inl rfl, .inl rfl⟩
  have hRead : Reaches (fun object call => some (after object call)) Fits fresh CachedExample.once :=
    Reaches.next .refl hFits rfl
  have hAsked : Fits CachedExample.once .getHash := trivial
  have hHashed : Reaches (fun object call => some (after object call)) Fits fresh (CachedExample.once.after .getHash) :=
    hRead.next hAsked rfl
  refine ((agrees_and_transparent_iff hHashed).2 .getWitnessHash).mpr (.inr (.inr ?_))
  rw [CachedExample.once_eq, CachedExample.after_getHash]

/-- An object that is read into a second time answers with its first hash, and one that has not been asked for its
hash answers with the null hash when it is asked for its witness hash. -/
theorem exists_stale_hash : ∃ calls calls' : List TransactionCall,
    (calls.foldl after fresh).getHash.2 ≠ Sha256.doubleHash256 ((calls.foldl after fresh).contents.serialize false) ∧
      (calls'.foldl after fresh).getWitnessHash.2 ≠
        Sha256.doubleHash256 ((calls'.foldl after fresh).contents.serialize true) := by
  have hTwice : CachedExample.twice.getHash.2 ≠ Sha256.doubleHash256 (CachedExample.twice.contents.serialize false) := by
    rw [CachedExample.twice_eq, getHash, if_pos (by rw [CachedExample.hashes.2.1]; rfl)]
    exact CachedExample.hashes.1
  have hOnce : CachedExample.once.getWitnessHash.2 ≠
      Sha256.doubleHash256 (CachedExample.once.contents.serialize true) := by
    rw [CachedExample.once_eq, getWitnessHash_of_noWitness (by dsimp only; decide) (by dsimp only; decide)]
    exact CachedExample.hashes.2.2.symm
  exact ⟨_, _, hTwice, hOnce⟩

end TransactionObject

end BitcoinGpuMiner
