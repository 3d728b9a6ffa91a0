import Mathlib.Logic.Relation
import BitcoinGpuMiner.Chain.Cases

/-! # Runs of `AcceptBlock`

A step is a call that returns. A run may be restricted to steps that some condition on the
state and the block allows.
-/

namespace BitcoinGpuMiner

open Foundation

set_option autoImplicit false

namespace Node

/-- A call of `AcceptBlock` that returns, whatever it returns. -/
def Step (verifyScript : VerifyScript) (node : Node) (block : Block) (node' : Node) : Prop :=
  ∃ result, acceptBlock verifyScript node block = ⟨node', .ok result⟩

/-- Finitely many steps from the state after `Initialize`, each of them allowed where it is made. -/
def Run (verifyScript : VerifyScript) (allowed : Node → Block → Prop) (node : Node) : Prop :=
  Relation.ReflTransGen (fun node node' => ∃ block, allowed node block ∧ Step verifyScript node block node')
    initial node

/-- The states reached by arbitrary calls. -/
def Reachable (verifyScript : VerifyScript) (node : Node) : Prop := Run verifyScript (fun _ _ => True) node

def acceptAll (verifyScript : VerifyScript) (node : Node) : List Block → Node
  | [] => node
  | block :: rest => acceptAll verifyScript (acceptBlock verifyScript node block).node rest

def returnsAll (verifyScript : VerifyScript) (node : Node) : List Block → Bool
  | [] => true
  | block :: rest =>
    (acceptBlock verifyScript node block).result.isOk &&
      returnsAll verifyScript (acceptBlock verifyScript node block).node rest

theorem acceptOrphan_node (node : Node) (block : Block) :
    ∃ orphanBlocks, (acceptOrphan node block).node = { node with orphanBlocks := orphanBlocks } := by
  simp only [acceptOrphan]
  split
  · exact ⟨node.orphanBlocks, rfl⟩
  · exact ⟨_, rfl⟩

namespace Tree

variable {node : Node} {block : Block} {prev active : BlockIndex}

theorem withBlock (hTree : node.Tree) (hCandidate : node.Candidate block prev active)
    (hNull : prev.hash ≠ Uint256.null) (hBits : block.nBits = proofOfWorkLimit) (tip : Bool) :
    (node.withBlock block prev tip).Tree := by
  cases tip with
  | false => exact hTree.withBlock_false hCandidate.parent hNull hCandidate.new hBits
  | true => exact hTree.withBlock_true hCandidate.parent hNull hCandidate.new hBits

theorem extend (hTree : node.Tree) (hCandidate : node.Candidate block prev active)
    (hNull : prev.hash ≠ Uint256.null) (hBits : block.nBits = proofOfWorkLimit) : (node.extend block prev).Tree :=
  (hTree.withBlock_true hCandidate.parent hNull hCandidate.new hBits).congr rfl rfl rfl

theorem reorganised (hTree : node.Tree) (hCandidate : node.Candidate block prev active)
    (hNull : prev.hash ≠ Uint256.null) (hBits : block.nBits = proofOfWorkLimit) :
    (node.reorganised block prev active).Tree :=
  (hTree.withBlock_true hCandidate.parent hNull hCandidate.new hBits).congr rfl rfl rfl

theorem acceptCase (hTree : node.Tree) {verifyScript : VerifyScript} {outcome : Outcome}
    (hCase : AcceptCase verifyScript node block outcome) : outcome.node.Tree := by
  cases hCase with
  | known | notExtended | notBranched | crashed | notOvertaken => exact hTree
  | orphan =>
    obtain ⟨orphanBlocks, hNode⟩ := acceptOrphan_node node block
    rw [hNode]
    exact hTree.congr rfl rfl rfl
  | extended memPool hCandidate hTop hOk hValid hNull =>
    exact (hTree.extend hCandidate hNull ((blockOk_iff _).mp hOk).2.1).congr rfl rfl rfl
  | branched hCandidate hBeside hOk hNull =>
    exact hTree.withBlock_true hCandidate.parent hNull hCandidate.new ((blockOk_iff _).mp hOk).2.1
  | savedOnly hCandidate hRival hNull hHeight hOk =>
    rw [← hTree.prev_hash hCandidate] at hNull
    exact hTree.withBlock_false hCandidate.parent hNull hCandidate.new ((blockOk_iff _).mp hOk).2.1
  | reorganised memPool hCandidate hRival hNull hHeight hOk =>
    rw [← hTree.prev_hash hCandidate] at hNull
    exact (hTree.reorganised hCandidate hNull ((blockOk_iff _).mp hOk).2.1).congr rfl rfl rfl

end Tree

section Invariant

variable {verifyScript : VerifyScript} {allowed : Node → Block → Prop}

/-- To show a property of every state of a run, show that allowed steps in a tree keep it. -/
theorem Run.invariant {motive : Node → Prop} (hInitial : motive initial)
    (hStep : ∀ node block node' result, node.Tree → motive node → allowed node block →
      acceptBlock verifyScript node block = ⟨node', .ok result⟩ → motive node')
    {node : Node} (hRun : Run verifyScript allowed node) : node.Tree ∧ motive node := by
  induction hRun with
  | refl => exact ⟨initial_tree, hInitial⟩
  | tail _ hNext ih =>
    obtain ⟨hTree, hMotive⟩ := ih
    obtain ⟨block, hAllowed, result, hAccept⟩ := hNext
    have hTree' := hTree.acceptCase (hTree.acceptBlock_cases verifyScript block)
    rw [hAccept] at hTree'
    exact ⟨hTree', hStep _ _ _ _ hTree hMotive hAllowed hAccept⟩

theorem Run.tree {node : Node} (hRun : Run verifyScript allowed node) : node.Tree :=
  (hRun.invariant (motive := fun _ => True) trivial fun _ _ _ _ _ _ _ _ => trivial).1

theorem Run.mono {weaker : Node → Block → Prop} (hWeaker : ∀ node block, allowed node block → weaker node block)
    {node : Node} (hRun : Run verifyScript allowed node) : Run verifyScript weaker node := by
  induction hRun with
  | refl => exact .refl
  | tail _ hNext ih =>
    obtain ⟨block, hAllowed, hStep⟩ := hNext
    exact ih.tail ⟨block, hWeaker _ _ hAllowed, hStep⟩

theorem step_of_isOk {node : Node} {block : Block} (hOk : (acceptBlock verifyScript node block).result.isOk = true) :
    Step verifyScript node block (acceptBlock verifyScript node block).node := by
  cases hOutcome : acceptBlock verifyScript node block with
  | mk node' result =>
    rw [hOutcome] at hOk
    cases result with
    | error fault => cases hOk
    | ok result => exact ⟨result, hOutcome⟩

theorem Reachable.acceptAll (blocks : List Block) {node : Node} (hReach : Reachable verifyScript node)
    (hReturns : returnsAll verifyScript node blocks = true) :
    Reachable verifyScript (acceptAll verifyScript node blocks) := by
  induction blocks generalizing node with
  | nil => exact hReach
  | cons block rest ih =>
    rw [returnsAll, Bool.and_eq_true] at hReturns
    exact ih (hReach.tail ⟨block, trivial, step_of_isOk hReturns.1⟩) hReturns.2

theorem Run.reachable {node : Node} (hRun : Run verifyScript allowed node) : Reachable verifyScript node :=
  hRun.mono fun _ _ _ => trivial

end Invariant

end Node

end BitcoinGpuMiner
