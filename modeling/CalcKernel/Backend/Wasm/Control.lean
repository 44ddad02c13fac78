import CalcKernel.Kir.Dominance
import CalcKernel.Lib.Assoc
import CalcKernel.Lib.Loop
import Mathlib.Data.List.MinMax
import Mathlib.Data.Prod.Lex

/-!
# The planner of structured control

`plan_structure` lays the reachable blocks of a function out as a nest of regions.  A
natural loop becomes a region of its own, and the items of a region stand in a
topological order of the edges between them.  Sets of blocks are ascending lists.
-/

namespace CalcKernel

/-- The items of a region in order.  The body of a loop is the region its header owns. -/
inductive StructureItems where
  | nil
  | block (block : BlockId) (rest : StructureItems)
  | loop (header : BlockId) (body rest : StructureItems)
deriving DecidableEq, Repr

inductive BranchTarget where
  | forward (block : BlockId)
  | loop (block : BlockId)
deriving DecidableEq, Repr

structure StructureLabels where
  forward : List (BlockId × String)
  loop : List (BlockId × String)
deriving DecidableEq, Repr

structure StructurePlan where
  root : StructureItems
  reachable : List BlockId
  labels : StructureLabels
  branchTargets : List ((BlockId × Nat) × BranchTarget)
deriving DecidableEq, Repr

structure NaturalLoop where
  header : BlockId
  blocks : List BlockId
  parent : Option BlockId
deriving DecidableEq, Repr

/-- A set of blocks that grows, and the blocks still to be looked at. -/
structure Worklist where
  seen : List BlockId
  work : List BlockId
deriving DecidableEq, Repr

def maxReachableBlocks : Nat := 256

def maxLoopDepth : Nat := 32

def usizeMax : Nat := 2 ^ 64 - 1

/-- The edges with the number of the arm they belong to. -/
def KirTerminator.outgoingEdges : KirTerminator → List (Nat × KirEdge)
  | .return _ _ _ => []
  | .jump edge => [(0, edge)]
  | .branch _ thenEdge elseEdge => [(0, thenEdge), (1, elseEdge)]

namespace KirFunction

variable (f : KirFunction)

def ordinal (id : BlockId) : Option Nat := f.blockIds.idxOf? id

/-! ## Reachable blocks -/

/-- The block at the front of the queue. -/
def visitBlock (s : Worklist) : Option Worklist :=
  match s.work with
  | [] => some s
  | id :: work =>
      if id ∈ s.seen then some ⟨s.seen, work⟩
      else
        let seen := s.seen.orderedInsert (· ≤ ·) id
        if maxReachableBlocks < seen.length then none
        else do
          let block ← f.block? id
          let targets := block.terminator.outgoingEdges.map (·.2.target)
          if targets.all (f.blockIds.contains ·) then
            some ⟨seen, work ++ targets.filter (· ∉ seen)⟩
          else none

def reachableBlocks : Option (List BlockId) :=
  if f.blockIds.Nodup then do
    let entry ← f.entryId?
    let s ← Lib.whileLoop (fun s : Worklist ↦ !s.work.isEmpty) f.visitBlock
      (2 * f.blocks.length + 1) ⟨[], [entry]⟩
    some s.seen
  else none

def predecessors (reachable : List BlockId) (target : BlockId) : Option (List BlockId) :=
  if target ∈ reachable then some ((f.flowPredecessors target).filter (· ∈ reachable)) else none

end KirFunction

/-! ## Natural loops -/

def Worklist.addLoopBlock (header : BlockId) (s : Worklist) (block : BlockId) : Worklist :=
  if block ∈ s.seen then s
  else ⟨s.seen.orderedInsert (· ≤ ·) block, if block = header then s.work else block :: s.work⟩

namespace KirFunction

variable (f : KirFunction)

/-- The block on top of the stack. -/
def growLoop (reachable : List BlockId) (header : BlockId) (s : Worklist) : Option Worklist :=
  match s.work with
  | [] => some s
  | block :: work => do
      let incoming ← f.predecessors reachable block
      some (incoming.foldl (Worklist.addLoopBlock header) ⟨s.seen, work⟩)

def loopBlocks (reachable : List BlockId) (header : BlockId) (latches : List BlockId) :
    Option (List BlockId) := do
  let s ← Lib.whileLoop (fun s : Worklist ↦ !s.work.isEmpty) (f.growLoop reachable header)
    reachable.length (latches.foldl (Worklist.addLoopBlock header) ⟨[header], []⟩)
  some s.seen

/-- The edges that lead back to a dominator: header and latch. -/
def backEdges (reachable : List BlockId) (dominators : Dominators) :
    Option (List (BlockId × BlockId)) := do
  let edges ← reachable.mapM fun source ↦ do
    let block ← f.block? source
    some (((block.terminator.outgoingEdges.map (·.2.target)).filter
      (dominators · source)).map (·, source))
  some edges.flatten

end KirFunction

/-- Two loops are apart, or one is strictly inside the other. -/
def NaturalLoop.Nested (left right : NaturalLoop) : Prop :=
  (∀ b ∈ left.blocks, b ∉ right.blocks) ∨
    (left.blocks ≠ right.blocks ∧ (left.blocks ⊆ right.blocks ∨ right.blocks ⊆ left.blocks))

instance : DecidableRel NaturalLoop.Nested := fun left right ↦ by
  unfold NaturalLoop.Nested
  infer_instance

namespace KirFunction

variable (f : KirFunction)

/-- A loop is entered at its header only. -/
def loopIsClosed (reachable : List BlockId) (l : NaturalLoop) : Bool :=
  (l.blocks.filter (· ≠ l.header)).all fun block ↦
    match f.predecessors reachable block with
    | none => false
    | some incoming => incoming.all (l.blocks.contains ·)

def discoverLoops (reachable : List BlockId) (dominators : Dominators) :
    Option (List NaturalLoop) := do
  let edges ← f.backEdges reachable dominators
  let loops ← (Lib.sortedSet (edges.map (·.1))).mapM fun header ↦ do
    let latches := Lib.sortedSet ((edges.filter (·.1 = header)).map (·.2))
    let blocks ← f.loopBlocks reachable header latches
    some (NaturalLoop.mk header blocks none)
  if loops.Pairwise NaturalLoop.Nested ∧ loops.all (f.loopIsClosed reachable) then some loops
  else none

/-- The smallest loop around another one, the earlier header first. -/
def loopParent (loops : List NaturalLoop) (child : NaturalLoop) : Option BlockId :=
  ((loops.filter fun candidate ↦
      candidate.header ≠ child.header ∧ child.blocks ⊆ candidate.blocks).argmin fun candidate ↦
    toLex (candidate.blocks.length, (f.ordinal candidate.header).getD usizeMax)).map (·.header)

def attachLoopParents (loops : List NaturalLoop) : List NaturalLoop :=
  loops.map fun child ↦ { child with parent := f.loopParent loops child }

end KirFunction

/-! ## Topological order -/

/-- The blocks without incoming edges left, by their place in the function. -/
abbrev ReadySet := List (Nat × BlockId)

def readyLe (a b : Nat × BlockId) : Bool := a.1 < b.1 || (a.1 = b.1 && a.2 ≤ b.2)

def ReadySet.insert (ready : ReadySet) (a : Nat × BlockId) : ReadySet :=
  if a ∈ ready then ready else ready.orderedInsert (readyLe · ·) a

/-- The edges from one block are taken away. -/
def releaseTargets (order : BlockId → Option Nat) :
    List BlockId → (BlockId → Nat) → ReadySet → Option ((BlockId → Nat) × ReadySet)
  | [], indegrees, ready => some (indegrees, ready)
  | target :: targets, indegrees, ready =>
      match indegrees target with
      | 0 => none
      | indegree + 1 =>
          let indegrees := Function.update indegrees target indegree
          if indegree = 0 then do
            let ordinal ← order target
            releaseTargets order targets indegrees (ready.insert (ordinal, target))
          else releaseTargets order targets indegrees ready

structure SortState where
  indegrees : BlockId → Nat
  ready : ReadySet
  sorted : List BlockId

def sortStep (edges : List (BlockId × BlockId)) (order : BlockId → Option Nat) (s : SortState) :
    Option SortState :=
  match s.ready with
  | [] => some s
  | (_, source) :: ready => do
      let (indegrees, ready) ← releaseTargets order
        ((edges.filter (·.1 = source)).map (·.2)) s.indegrees ready
      some ⟨indegrees, ready, s.sorted ++ [source]⟩

def stableTopologicalOrder (items : List BlockId) (projected : List (BlockId × BlockId))
    (order : BlockId → Option Nat) : Option (List BlockId) :=
  let edges := projected.filter fun e ↦ e.1 ≠ e.2
  if edges.all fun e ↦ items.contains e.1 && items.contains e.2 then do
    let indegrees := fun item ↦ edges.countP fun e ↦ e.2 = item
    let ready ← (items.filter (indegrees · = 0)).mapM fun item ↦ (order item).map (·, item)
    let s ← Lib.whileLoop (fun s : SortState ↦ !s.ready.isEmpty) (sortStep edges order)
      items.length ⟨indegrees, ready.foldl ReadySet.insert [], []⟩
    if s.sorted.length = items.length then some s.sorted else none
  else none

/-! ## Regions -/

def regionScope (reachable : List BlockId) (loops : List NaturalLoop) :
    Option BlockId → Option (List BlockId)
  | none => some reachable
  | some header => (loops.find? (·.header = header)).map (·.blocks)

/-- The item of a region that stands for a block of its scope. -/
def representative (children : List NaturalLoop) (scope : List BlockId) :
    BlockId → Option BlockId :=
  children.foldl (fun rep child block ↦ if block ∈ child.blocks then some child.header else rep block)
    fun block ↦ if block ∈ scope then some block else none

/-- The blocks and loops of a sorted region. -/
def layItems (children : List BlockId) (body : BlockId → Option StructureItems) :
    List BlockId → Option StructureItems
  | [] => some .nil
  | item :: items =>
      if item ∈ children then do
        let inner ← body item
        let rest ← layItems children body items
        some (.loop item inner rest)
      else do
        let rest ← layItems children body items
        some (.block item rest)

namespace KirFunction

variable (f : KirFunction)

/-- The edges between the items of a region, without those back to its owner. -/
def projectedEdges (owner : Option BlockId) (scope : List BlockId)
    (rep : BlockId → Option BlockId) : Option (List (BlockId × BlockId)) := do
  let edges ← scope.mapM fun source ↦ do
    let sourceItem ← rep source
    let block ← f.block? source
    some (block.terminator.outgoingEdges.filterMap fun (_, edge) ↦ do
      let targetItem ← rep edge.target
      if sourceItem = targetItem ∨ owner = some edge.target then none
      else some (sourceItem, targetItem))
  some edges.flatten

def regionOrder (owner : Option BlockId) (children : List NaturalLoop) (scope : List BlockId) :
    Option (List BlockId) := do
  let rep := representative children scope
  let edges ← f.projectedEdges owner scope rep
  let items := Lib.sortedSet ((scope ++ children.flatMap (·.blocks)).filterMap rep)
  stableTopologicalOrder items edges f.ordinal

/-- The depth check fails before the fuel is used up. -/
def buildRegion (reachable : List BlockId) (loops : List NaturalLoop) :
    Nat → Option BlockId → Nat → BlockId → Option StructureItems
  | 0, _, _, _ => none
  | fuel + 1, owner, depth, entry => do
      let children := loops.filter (·.parent = owner)
      if children ≠ [] ∧ maxLoopDepth ≤ depth then none
      else
        let scope ← regionScope reachable loops owner
        let sorted ← f.regionOrder owner children scope
        let expectedEntry ← representative children scope entry
        if sorted.head? = some expectedEntry then
          layItems (children.map (·.header))
            (fun item ↦ buildRegion reachable loops fuel (some item) (depth + 1) item) sorted
        else none

end KirFunction

/-! ## Labels and scopes -/

def forwardLabel (target : BlockId) : String := "ik_to_b" ++ toString target

def loopLabel (header : BlockId) : String := "ik_loop_b" ++ toString header

namespace StructureLabels

def addForward (labels : StructureLabels) (owner : Option BlockId) (id : BlockId) :
    StructureLabels :=
  if owner ≠ some id then ⟨(id, forwardLabel id) :: labels.forward, labels.loop⟩ else labels

def addLoop (labels : StructureLabels) (header : BlockId) : StructureLabels :=
  ⟨labels.forward, (header, loopLabel header) :: labels.loop⟩

end StructureLabels

namespace StructureItems

/-- The block that stands for each item. -/
def heads : StructureItems → List BlockId
  | .nil => []
  | .block id rest => id :: rest.heads
  | .loop header _ rest => header :: rest.heads

def collectLabels (owner : Option BlockId) : StructureItems → StructureLabels → StructureLabels
  | .nil, labels => labels
  | .block id rest, labels => rest.collectLabels owner (labels.addForward owner id)
  | .loop header body rest, labels =>
      rest.collectLabels owner
        (body.collectLabels (some header) ((labels.addForward owner header).addLoop header))

end StructureItems

def scopedTarget (labels : StructureLabels) (activeLoops forward : List BlockId)
    (target : BlockId) : Option BranchTarget :=
  if target ∈ activeLoops then
    if (labels.loop.lookup target).isSome then some (.loop target) else none
  else if target ∈ forward then
    if (labels.forward.lookup target).isSome then some (.forward target) else none
  else none

/-- The target of one edge is recorded, once. -/
def recordTarget (labels : StructureLabels) (activeLoops forward : List BlockId)
    (block : BlockId) (targets : List ((BlockId × Nat) × BranchTarget)) (arm : Nat × KirEdge) :
    Option (List ((BlockId × Nat) × BranchTarget)) := do
  let target ← scopedTarget labels activeLoops forward arm.2.target
  if (targets.lookup (block, arm.1)).isSome then none
  else some (((block, arm.1), target) :: targets)

namespace KirFunction

variable (f : KirFunction)

def validateScopes (labels : StructureLabels) : List BlockId → List BlockId → StructureItems →
    List ((BlockId × Nat) × BranchTarget) → Option (List ((BlockId × Nat) × BranchTarget))
  | _, _, .nil, targets => some targets
  | activeLoops, inheritedForward, .block id rest, targets => do
      let forward := rest.heads ++ inheritedForward
      let source ← f.block? id
      let targets ← source.terminator.outgoingEdges.foldlM
        (recordTarget labels activeLoops forward id) targets
      validateScopes labels activeLoops inheritedForward rest targets
  | activeLoops, inheritedForward, .loop header body rest, targets => do
      let forward := rest.heads ++ inheritedForward
      let targets ← validateScopes labels (header :: activeLoops) forward body targets
      validateScopes labels activeLoops inheritedForward rest targets

def expectedEdges (reachable : List BlockId) : Nat :=
  ((reachable.filterMap f.block?).map (·.terminator.outgoingEdges.length)).sum

def planStructure : Option StructurePlan := do
  let reachable ← f.reachableBlocks
  if reachable = [] ∨ maxReachableBlocks < reachable.length then none
  else
    let loops ← f.discoverLoops reachable f.computeKirDominators
    let entry ← f.entryId?
    let root ← f.buildRegion reachable (f.attachLoopParents loops) (maxLoopDepth + 1) none 0 entry
    let labels := root.collectLabels none ⟨[], []⟩
    let targets ← f.validateScopes labels [] [] root []
    if targets.length = f.expectedEdges reachable then some ⟨root, reachable, labels, targets⟩
    else none

end KirFunction

end CalcKernel
