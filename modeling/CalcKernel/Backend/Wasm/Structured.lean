import CalcKernel.Backend.Wasm.Control
import CalcKernel.Lib.Trace

/-!
# The nest of blocks and loops

`emit_region` opens a block for every item of a region but the first and closes it in
front of the item.  A machine runs the nest: a branch to a label leaves a block or
repeats a loop, and reaching an `end` without a branch is an event of its own.  The
instructions of a KIR block are one visit of it.
-/

namespace CalcKernel

inductive Wat where
  | code (block : BlockId)
  | block (label : String) (body : List Wat)
  | loop (label : String) (body : List Wat)
  | ifElse (thenBody elseBody : List Wat)
  | br (label : String)

/-! ## Emission -/

namespace StructurePlan

variable (plan : StructurePlan)

/-- The label `emit_edge` branches to. -/
def edgeLabel (block : BlockId) (arm : Nat) : Option String :=
  match plan.branchTargets.lookup (block, arm) with
  | some (.forward target) => plan.labels.forward.lookup target
  | some (.loop header) => plan.labels.loop.lookup header
  | none => none

def emitTerminator (exitLabel : String) (id : BlockId) : KirTerminator → Option (List Wat)
  | .return _ _ _ => some [.br exitLabel]
  | .jump _ => (plan.edgeLabel id 0).map fun label ↦ [.br label]
  | .branch _ _ _ => do
      let thenLabel ← plan.edgeLabel id 0
      let elseLabel ← plan.edgeLabel id 1
      some [.ifElse [.br thenLabel] [.br elseLabel]]

/-- The blocks that end in front of the later items, around what comes before. -/
def layCodes : List (BlockId × List Wat) → List Wat
  | [] => []
  | first :: rest => rest.foldl (fun inner item ↦
      match plan.labels.forward.lookup item.1 with
      | some label => .block label inner :: item.2
      | none => inner ++ item.2) first.2

end StructurePlan

namespace KirFunction

variable (f : KirFunction) (plan : StructurePlan) (exitLabel : String)

def emitBlock (id : BlockId) : Option (List Wat) := do
  let block ← f.block? id
  let terminator ← plan.emitTerminator exitLabel id block.terminator
  some (.code id :: terminator)

/-- The code of each item of a region. -/
def itemCodes : StructureItems → Option (List (BlockId × List Wat))
  | .nil => some []
  | .block id rest => do
      let code ← f.emitBlock plan exitLabel id
      let codes ← itemCodes rest
      some ((id, code) :: codes)
  | .loop header body rest => do
      let inner ← itemCodes body
      let label ← plan.labels.loop.lookup header
      let codes ← itemCodes rest
      some ((header, [.loop label (plan.layCodes inner)]) :: codes)

def emitRegion (items : StructureItems) : Option (List Wat) :=
  (f.itemCodes plan exitLabel items).map plan.layCodes

/-- The body of the function: the root region in a block that a return leaves. -/
def emitStructured : Option (List Wat) :=
  (f.emitRegion plan exitLabel plan.root).map fun body ↦ [.block exitLabel body]

end KirFunction

/-- The code of a block stands in a nest under these labels, the innermost first. -/
inductive EmittedUnder : List Wat → BlockId → List String → Prop
  | code {nest id} (h : .code id ∈ nest) : EmittedUnder nest id []
  | block {nest label body id scopes} (h : .block label body ∈ nest)
      (hbody : EmittedUnder body id scopes) : EmittedUnder nest id (scopes ++ [label])
  | loop {nest label body id scopes} (h : .loop label body ∈ nest)
      (hbody : EmittedUnder body id scopes) : EmittedUnder nest id (scopes ++ [label])

/-! ## Execution -/

inductive ControlEvent where
  | visit (block : BlockId)
  | leave
  | fallThrough
  | unknownLabel
deriving DecidableEq, Repr

/-- Where a branch to the label goes on, and where the `end` does. -/
structure WatFrame where
  label : Option String
  target : List Wat
  rest : List Wat

structure WatState where
  code : List Wat
  frames : List WatFrame
  taken : Nat

/-- The innermost frame with the label. -/
def watBranch (label : String) : List WatFrame → Option (List Wat × List WatFrame)
  | [] => none
  | frame :: frames =>
      if frame.label = some label then some (frame.target, frames) else watBranch label frames

/-- One step under a sequence of branch decisions. -/
def watMachine (decisions : Nat → Bool) : Lib.EventMachine WatState ControlEvent where
  step s :=
    match s.code with
    | [] =>
        match s.frames with
        | [] => ([.leave], none)
        | frame :: frames => ([.fallThrough], some ⟨frame.rest, frames, s.taken⟩)
    | .code id :: rest => ([.visit id], some ⟨rest, s.frames, s.taken⟩)
    | .block label body :: rest =>
        ([], some ⟨body, ⟨some label, rest, rest⟩ :: s.frames, s.taken⟩)
    | .loop label body :: rest =>
        ([], some ⟨body, ⟨some label, .loop label body :: rest, rest⟩ :: s.frames, s.taken⟩)
    | .ifElse thenBody elseBody :: rest =>
        ([], some ⟨if decisions s.taken then thenBody else elseBody,
          ⟨none, rest, rest⟩ :: s.frames, s.taken + 1⟩)
    | .br label :: _ =>
        match watBranch label s.frames with
        | some (code, frames) => ([], some ⟨code, frames, s.taken⟩)
        | none => ([.unknownLabel], none)

/-- A block of the function and the number of decisions made before it. -/
structure FlowState where
  block : BlockId
  taken : Nat

/-- The blocks of the function one after the other under a sequence of branch decisions. -/
def KirFunction.flowMachine (f : KirFunction) (decisions : Nat → Bool) :
    Lib.EventMachine FlowState ControlEvent where
  step s :=
    match f.block? s.block with
    | none => ([.unknownLabel], none)
    | some source =>
        match source.terminator with
        | .return _ _ _ => ([.visit s.block, .leave], none)
        | .jump edge => ([.visit s.block], some ⟨edge.target, s.taken⟩)
        | .branch _ thenEdge elseEdge =>
            ([.visit s.block],
              some ⟨if decisions s.taken then thenEdge.target else elseEdge.target, s.taken + 1⟩)

end CalcKernel
