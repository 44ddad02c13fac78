import CalcKernel.Lib.StrongComponents
import CalcKernel.Kir.Rewiring
import CalcKernel.Lib.Assoc
import CalcKernel.Optimizer.DeadCode
import CalcKernel.Optimizer.PhiPrune

/-!
# CFG canonicalization

Branches on constants become jumps, edges into blocks that only branch on a constant argument
are threaded through them, blocks no longer reached and blocks that only forward are removed,
and dead block parameters are pruned.
-/

namespace CalcKernel

open Lib Relation

/-! ## Constant branches -/

/-- The boolean constants of a function, first to last. -/
def KirFunction.boolConstants (f : KirFunction) : List (ValueId × Bool) :=
  f.instructions.filterMap fun i ↦
    match i.kind with
    | .constBool value => i.results.head?.map fun result ↦ (result.value, value)
    | _ => none

def KirTerminator.foldConstant (constants : List (ValueId × Bool)) : KirTerminator → KirTerminator
  | .branch condition thenEdge elseEdge =>
      match constants.lookup condition with
      | some constant => .jump (if constant then thenEdge else elseEdge)
      | none => .branch condition thenEdge elseEdge
  | terminator => terminator

def KirFunction.foldConstantBranches (f : KirFunction) : KirFunction :=
  { f with blocks := f.blocks.map fun b ↦
      { b with terminator := b.terminator.foldConstant f.boolConstants } }

/-! ## Parameters used elsewhere -/

def KirBlock.usesValues (values : List ValueId) (b : KirBlock) : Bool :=
  (b.instructions.any fun i ↦ i.uses.any (· ∈ values)) || b.terminator.uses.any (· ∈ values)

def KirBlock.usesMemories (memories : List MemoryVersionId) (b : KirBlock) : Bool :=
  (b.instructions.any fun i ↦ i.memory.any fun memory ↦ memory.input ∈ memories) ||
    (b.terminator.edges.any fun edge ↦ edge.memoryArgs.any (· ∈ memories)) ||
    b.terminator.returned.any (·.2 ∈ memories)

/-- The parameters of a block are named by facts, regions or other blocks. -/
def hasNonlocalParameterUses (f : KirFunction) (bridge : KirBlock) (protected_ : List ValueId) :
    Bool :=
  let values := bridge.params.map (·.value)
  let memories := bridge.memoryParams.map (·.version)
  values.any (· ∈ protected_) ||
  (f.regions.any fun region ↦ region.origin.value?.any (· ∈ values) ||
    region.byteInterval.any fun interval ↦ interval.start ∈ values || interval.stop ∈ values) ||
  (f.blocks.filter (·.id ≠ bridge.id)).any fun b ↦ b.usesValues values || b.usesMemories memories

/-! ## Edges through constant branches -/

/-- The blocks that only branch on one of their parameters. -/
def branchThreads (f : KirFunction) (protected_ : List ValueId) : List KirBlock :=
  (f.blocks.filter fun b ↦ b.instructions.isEmpty &&
    match b.terminator with
    | .branch condition _ _ => b.params.any (·.value = condition)
    | _ => false).filter fun b ↦ !hasNonlocalParameterUses f b protected_

/-- `branches.get`: of two blocks with one identity the last counts. -/
def threadAt (branches : List KirBlock) (id : BlockId) : Option KirBlock :=
  branches.reverse.find? (·.id = id)

/-- The branch blocks that follow a block, then-edge first. -/
def threadSuccessors (branches : List KirBlock) (id : BlockId) : List BlockId :=
  match threadAt branches id with
  | some b => b.terminator.successors.filter fun target ↦ (threadAt branches target).isSome
  | none => []

def threadPredecessors (branches : List KirBlock) (id : BlockId) : List BlockId :=
  (sortedSet (branches.map (·.id))).flatMap fun source ↦
    (threadSuccessors branches source).filterMap fun target ↦
      if target = id then some source else none

/-- The rounds a pass over the branch blocks takes at most. -/
def threadFuel (branches : List KirBlock) : Nat :=
  ((sortedSet (branches.map (·.id))).map fun id ↦ (threadSuccessors branches id).length + 1).sum + 1

/-- The order in which a depth-first traversal leaves the branch blocks, the last first. -/
def threadFinish (branches : List KirBlock) : Option (List BlockId) :=
  ((sortedSet (branches.map (·.id))).foldlM (fun (s : Traversal BlockId) start ↦
    if start ∈ s.visited then some s
    else (({ s with stack := [(start, false)] } : Traversal BlockId).run
      (fun visited id ↦ (threadSuccessors branches id).filter (· ∉ visited))
      (threadFuel branches)).map (·.2)) ⟨[], [], []⟩).map (·.finish)

/-- A component while it is gathered. -/
structure Gathering where
  pending : List BlockId
  assigned : List BlockId
  component : List BlockId

def gatherPrevious (s : Gathering) (previous : BlockId) : Gathering :=
  if previous ∈ s.assigned then s
  else ⟨previous :: s.pending, previous :: s.assigned, previous :: s.component⟩

def gatherRound (branches : List KirBlock) (s : Gathering) : Gathering :=
  match s.pending with
  | [] => s
  | id :: pending =>
      (threadPredecessors branches id).foldl gatherPrevious { s with pending := pending }

/-- What reaches a block and was not assigned before. -/
def gatherThreads (branches : List KirBlock) (assigned : List BlockId) (start : BlockId) :
    Option (List BlockId) :=
  (whileLoop (fun s : Gathering ↦ !s.pending.isEmpty) (some ∘ gatherRound branches)
    (branches.length + 1) ⟨[start], start :: assigned, [start]⟩).map (·.component)

/-- The branch blocks that lie on cycles of such blocks. -/
def cyclicBranchThreadTargets (branches : List KirBlock) : Option (List BlockId) := do
  let finish ← threadFinish branches
  let components ← sweep (gatherThreads branches) [] finish
  some (components.flatMap fun p ↦
    if 1 < p.2.length ∨ decide (p.1 ∈ threadSuccessors branches p.1) = true then p.2 else [])

/-- One round of `thread_constant_branch_edge`: the edge behind the branch block. -/
def threadOnce (branches : List KirBlock) (cyclic : List BlockId)
    (constants : List (ValueId × Bool)) (edge : KirEdge) : Option KirEdge :=
  if edge.target ∈ cyclic then none
  else match threadAt branches edge.target with
    | none => none
    | some bridge =>
        match bridge.terminator with
        | .branch condition thenEdge elseEdge =>
            let threaded : Option KirEdge := do
              let index ← bridge.params.findIdx? fun param ↦ param.value = condition
              let value ← edge.args[index]?
              let constant ← constants.reverse.lookup value
              some (edge.through bridge (if constant then thenEdge else elseEdge))
            threaded.filter (· ≠ edge)
        | _ => none

def threadEdge (branches : List KirBlock) (cyclic : List BlockId)
    (constants : List (ValueId × Bool)) : Nat → List BlockId → KirEdge → KirEdge
  | 0, _, edge => edge
  | rounds + 1, visited, edge =>
      if edge.target ∈ visited then edge
      else match threadOnce branches cyclic constants edge with
        | none => edge
        | some edge' => threadEdge branches cyclic constants rounds (edge.target :: visited) edge'

def KirTerminator.mapEdges (g : KirEdge → KirEdge) : KirTerminator → KirTerminator
  | .return value memory effectOrder => .return value memory effectOrder
  | .jump edge => .jump (g edge)
  | .branch condition thenEdge elseEdge => .branch condition (g thenEdge) (g elseEdge)

def KirBlock.mapEdges (g : KirEdge → KirEdge) (b : KirBlock) : KirBlock :=
  { b with terminator := b.terminator.mapEdges g }

def KirFunction.threadBranches (f : KirFunction) (branches : List KirBlock)
    (cyclic : List BlockId) : KirFunction :=
  { f with blocks := f.blocks.map fun b ↦
      if b.id ∈ cyclic then b
      else b.mapEdges (threadEdge branches cyclic f.boolConstants branches.length []) }

/-! ## Blocks that are not reached -/

/-- One pass over the blocks: the targets of those known to be reached. -/
def reachPass (blocks : List KirBlock) (reachable : List BlockId) : List BlockId :=
  blocks.foldl (fun reachable b ↦
    if b.id ∈ reachable then
      b.terminator.successors.foldl (fun reachable target ↦ reachable.insert target) reachable
    else reachable) reachable

/-- Passes until one finds nothing new. -/
def reachPasses (blocks : List KirBlock) : Nat → List BlockId → Option (List BlockId)
  | 0, _ => none
  | rounds + 1, reachable =>
      let reachable' := reachPass blocks reachable
      if reachable'.length = reachable.length then some reachable'
      else reachPasses blocks rounds reachable'

def KirFunction.removeUnreachable (f : KirFunction) : Option KirFunction :=
  match f.blocks.head? with
  | none => some f
  | some entry =>
      (reachPasses f.blocks ((f.blocks.flatMap (·.terminator.successors)).length + 1)
        [entry.id]).map fun reachable ↦
          { f with blocks := f.blocks.filter (·.id ∈ reachable) }

/-! ## Blocks that only forward -/

/-- `is_forwarding_block`. -/
def isForwardingBlock (b : KirBlock) : Bool :=
  b.instructions.isEmpty &&
    match b.terminator with
    | .jump edge => edge.target ≠ b.id
    | _ => false

/-- `forward_edge`. -/
def forwardEdge (bridge : KirBlock) (outgoing edge : KirEdge) : KirEdge :=
  if edge.target ≠ bridge.id then edge else edge.through bridge outgoing

/-- The place of a block that only forwards; the entry is none. -/
def forwardingIndex (f : KirFunction) (protected_ : List ValueId) : Option Nat :=
  (f.blocks.tail.findIdx? fun b ↦
    isForwardingBlock b && !hasNonlocalParameterUses f b protected_).map (· + 1)

/-- The function without the block at an index, whose jump its predecessors make themselves. -/
def KirFunction.withoutForwarding (f : KirFunction) (index : Nat) : KirFunction :=
  match f.blocks[index]? with
  | some bridge =>
      match bridge.terminator with
      | .jump outgoing =>
          { f with blocks :=
              (f.blocks.eraseIdx index).map (·.mapEdges (forwardEdge bridge outgoing)) }
      | _ => f
  | none => f

/-- Blocks are removed one by one; every round has one less. -/
def removeForwarding (protected_ : List ValueId) : Nat → KirFunction → KirFunction
  | 0, f => f
  | rounds + 1, f =>
      match forwardingIndex f protected_ with
      | none => f
      | some index => removeForwarding protected_ rounds (f.withoutForwarding index)

/-! ## The pass -/

def KirTerminator.mergeEdges : KirTerminator → KirTerminator
  | .branch condition thenEdge elseEdge =>
      if thenEdge = elseEdge then .jump thenEdge else .branch condition thenEdge elseEdge
  | terminator => terminator

def KirFunction.mergeBranches (f : KirFunction) : KirFunction :=
  { f with blocks := f.blocks.map fun b ↦ { b with terminator := b.terminator.mergeEdges } }

/-- The steps of the pass on one function; a function without blocks is left after the first
two. -/
def KirFunction.cfgCanonicalize (f : KirFunction) (protected_ : List ValueId) :
    Option KirFunction := do
  let f := f.foldConstantBranches
  let branches := branchThreads f protected_
  let cyclic ← cyclicBranchThreadTargets branches
  let f ← (f.threadBranches branches cyclic).removeUnreachable
  some (if f.blocks.isEmpty then f
    else ((removeForwarding protected_ f.blocks.length f).mergeBranches).pruned protected_)

/-- `run_cfg_canonicalize`. -/
def runCfgCanonicalize (m : KirModule) (protected_ : List ValueId) : Option KirModule :=
  (m.functions.mapM (KirFunction.cfgCanonicalize · protected_)).map fun functions ↦
    { m with functions := functions }

end CalcKernel
