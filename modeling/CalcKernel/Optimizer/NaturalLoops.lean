import CalcKernel.Backend.Wasm.Control
import CalcKernel.Kir.DominanceCache
import CalcKernel.Lib.StrongComponents

/-!
# Natural loops

The loops of a function, found with a budget: first the blocks on cycles of forward edges, then,
if there are none, a loop for each block that an edge leads back to.  The search for induction
variables that follows is left out.
-/

namespace CalcKernel

open Lib

structure NaturalLoopInfo where
  header : BlockId
  latches : List BlockId
  blocks : List BlockId
  parent : Option Nat
  depth : Nat
deriving DecidableEq, Repr

structure NaturalLoopAnalysis where
  loops : List NaturalLoopInfo
  irreducibleBlocks : List BlockId
deriving DecidableEq, Repr

/-! ## Irreducible blocks -/

namespace KirFunction

variable (f : KirFunction) (dominators : Dominators)

/-- The targets of the edges of a block that do not lead back to a dominator. -/
def forwardTargets (block : BlockId) : List BlockId :=
  sortedSet ((f.blocks.filter (·.id = block)).flatMap fun b ↦
    b.terminator.successors.filter fun target ↦ !dominators target b.id)

/-- The blocks with such an edge to a block. -/
def forwardSources (target : BlockId) : List BlockId :=
  sortedSet ((f.blocks.filter fun b ↦
    target ∈ b.terminator.successors ∧ dominators target b.id = false).map (·.id))

end KirFunction

/-- A traversal takes a unit for each step. -/
def traverse (next : BlockId → List BlockId) (s : Traversal BlockId) :
    Budgeted (Traversal BlockId) := fun remaining ↦
  (s.run (fun _ ↦ next) remaining).map fun result ↦ (result.2, result.1)

/-- What is on the stack, what belongs to a component, and what belongs to the one that is
gathered. -/
structure ComponentState where
  stack : List BlockId
  assigned : List BlockId
  component : List BlockId
deriving DecidableEq, Repr

def assignBlock (sources : BlockId → List BlockId) (s : ComponentState) : ComponentState :=
  match s.stack with
  | [] => s
  | block :: stack =>
      if block ∈ s.assigned then { s with stack := stack }
      else ⟨(sources block).reverse ++ stack, block :: s.assigned, block :: s.component⟩

def gatherComponent (sources : BlockId → List BlockId) (assigned : List BlockId)
    (root : BlockId) : Budgeted ComponentState :=
  payWhile (fun s : ComponentState ↦ !s.stack.isEmpty)
    (fun s ↦ do spend 1; return assignBlock sources s) ⟨[root], assigned, []⟩

def sweepComponents (sources : BlockId → List BlockId) :
    List BlockId → List BlockId → Budgeted (List (BlockId × List BlockId))
  | _, [] => pure []
  | assigned, root :: rest =>
      if root ∈ assigned then sweepComponents sources assigned rest
      else do
        let s ← gatherComponent sources assigned root
        let components ← sweepComponents sources s.assigned rest
        return (root, s.component) :: components

/-- A unit for each block. -/
def KirFunction.spendBlocks (f : KirFunction) : Budgeted Unit :=
  f.blocks.foldlM (fun _ _ ↦ spend 1) ()

namespace KirFunction

variable (f : KirFunction) (dominators : Dominators)

/-- The blocks in the order in which they are left, the last first. -/
def forwardFinish : Budgeted (List BlockId) := do
  let s ← (sortedSet f.blockIds).foldlM (fun s root ↦
    traverse (f.forwardTargets dominators) { s with stack := [(root, false)] })
      (⟨[], [], []⟩ : Traversal BlockId)
  return s.finish

/-- `irreducible_blocks`. -/
def irreducibleBlocks : Budgeted (List BlockId) := do
  f.spendBlocks
  let finish ← f.forwardFinish dominators
  let components ← sweepComponents (f.forwardSources dominators) [] finish
  return sortedSet (components.flatMap fun p ↦ if 1 < p.2.length then p.2 else [])

/-! ## Loops -/

/-- The blocks that an edge leads back to. -/
def loopHeaders : List BlockId :=
  sortedSet (f.blocks.flatMap fun b ↦
    b.terminator.successors.filter fun target ↦ dominators target b.id)

def loopLatches (header : BlockId) : List BlockId :=
  sortedSet ((f.blocks.filter fun b ↦
    header ∈ b.terminator.successors ∧ dominators header b.id).map (·.id))

/-- A row of `predecessor_map`. -/
def loopPredecessors (block : BlockId) : List BlockId := sortedSet (f.flowPredecessors block)

/-- A block from the stack: its predecessors join the loop. -/
def growLoopBody (header : BlockId) (s : Worklist) : Budgeted Worklist :=
  match s.work with
  | [] => pure s
  | block :: work => do
      spend 1
      if block = header then return ⟨s.seen, work⟩
      else (f.loopPredecessors block).foldlM (fun s predecessor ↦ do
        spend 1
        return s.addLoopBlock header predecessor) ⟨s.seen, work⟩

def naturalLoop (header : BlockId) : Budgeted NaturalLoopInfo := do
  let latches := f.loopLatches dominators header
  let s ← payWhile (fun s : Worklist ↦ !s.work.isEmpty) (f.growLoopBody header)
    ⟨sortedSet (header :: latches), latches.reverse⟩
  return ⟨header, latches, s.seen, none, 1⟩

end KirFunction

/-- A larger loop that has all blocks of the child is its parent, unless a smaller one was found
before. -/
def parentStep (child : NaturalLoopInfo) (parent : Option (NaturalLoopInfo × Nat))
    (candidate : NaturalLoopInfo × Nat) : Budgeted (Option (NaturalLoopInfo × Nat)) := do
  spend 1
  if candidate.1.blocks.length ≤ child.blocks.length then return parent
  else do
    spend child.blocks.length
    return if child.blocks.all (candidate.1.blocks.contains ·) &&
      parent.all fun p ↦ candidate.1.blocks.length < p.1.blocks.length then some candidate
      else parent

def attachParents (loops : List NaturalLoopInfo) : Budgeted (List NaturalLoopInfo) :=
  loops.mapM fun child ↦ do
    let parent ← loops.zipIdx.foldlM (parentStep child) none
    return { child with parent := parent.map (·.2) }

/-- The depth of a loop: one more for each step from parent to parent.  A budget of 32 bits is
exhausted before the count saturates. -/
def loopDepth (loops : List NaturalLoopInfo) (child : NaturalLoopInfo) : Budgeted Nat := do
  let s ← payWhile (fun s : Nat × Option Nat ↦ s.2.isSome) (fun s ↦ do
    spend 1
    return (s.1 + 1, s.2.bind fun p ↦ loops[p]?.bind (·.parent))) (1, child.parent)
  return s.1

/-- `analyze_with_budget` up to the induction variables. -/
def KirFunction.analyzeNaturalLoops (f : KirFunction) : Budgeted NaturalLoopAnalysis := do
  spend 1
  let dominators ← f.computeDominators spendUnits
  let irreducible ← f.irreducibleBlocks dominators
  if irreducible ≠ [] then return ⟨[], irreducible⟩
  else do
    f.spendBlocks
    let loops ← (f.loopHeaders dominators).mapM (f.naturalLoop dominators)
    let loops ← attachParents loops
    let loops ← loops.mapM fun child ↦ do
      let depth ← loopDepth loops child
      return { child with depth := depth }
    return ⟨loops, []⟩

end CalcKernel
