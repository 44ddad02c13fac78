import CalcKernel.Backend.Wasm.Words
import Mathlib.Data.Option.Basic

/-!
# Bulk memory candidates

Functions that are one loop which copies or fills an array of words, as the backend
recognises them, and the guard that it emits in front of the loop.
-/

namespace CalcKernel

open Lib

inductive WasmBulkKind where
  | copy
  | fill (byte : BitVec 8)
deriving DecidableEq, Repr

structure CheckedWasmBulkMemory where
  kind : WasmBulkKind
  destination : ValueId
  source : Option ValueId
  start : ValueId
  stop : ValueId
  elementBytes : Nat
deriving Repr

/-! ## Parts of instructions -/

def single? {α : Type} : List α → Option α
  | [a] => some a
  | _ => none

namespace KirInstructionKind

def loadPlace? : KirInstructionKind → Option KirPlace
  | .load place => some place
  | _ => none

def stored? : KirInstructionKind → Option (KirPlace × ValueId)
  | .store place v => some (place, v)
  | _ => none

def isBinary : KirInstructionKind → Bool
  | .binary _ _ _ _ => true
  | _ => false

def modularAdd? : KirInstructionKind → Option (ValueId × ValueId)
  | .binary .add l r .modular => some (l, r)
  | _ => none

def constIntText? : KirInstructionKind → Option String
  | .constInt text => some text
  | _ => none

end KirInstructionKind

def KirPlace.isIndex : KirPlace → Bool
  | .index _ _ _ _ => true
  | _ => false

def KirTerminator.jumpEdge? : KirTerminator → Option KirEdge
  | .jump edge => some edge
  | _ => none

def KirTerminator.branchEdges? : KirTerminator → Option (ValueId × KirEdge × KirEdge)
  | .branch condition thenEdge elseEdge => some (condition, thenEdge, elseEdge)
  | _ => none

def KirTerminator.returnsNothing : KirTerminator → Bool
  | .return none _ _ => true
  | _ => false

/-! ## The proposal -/

/-- `propose_wasm_bulk_memory` -/
def proposeWasmBulkMemory (f : KirFunction) : Option WasmBulkKind :=
  if f.returnType ≠ .void ∨ f.blocks.length ≠ 4 then none
  else if f.instructions.any fun i ↦ i.kind.stored?.any (·.1.isIndex) then
    some (if f.instructions.any fun i ↦ i.kind.loadPlace?.any (·.isIndex) then .copy else .fill 0)
  else none

/-! ## The checker -/

/-- The four blocks with the edges between them. -/
structure BulkBlocks where
  entry : KirBlock
  header : KirBlock
  body : KirBlock
  exit : KirBlock
  entryEdge : KirEdge
  backedge : KirEdge
  condition : ValueId

def bulkBlocks (f : KirFunction) : Option BulkBlocks := do
  guard (f.returnType = .void ∧ f.blocks.length = 4)
  let entry ← f.blocks.head?
  guard (entry.params = [])
  let entryEdge ← entry.terminator.jumpEdge?
  let header ← f.block? entryEdge.target
  let (condition, thenEdge, elseEdge) ← header.terminator.branchEdges?
  let body ← f.block? thenEdge.target
  let exit ← f.block? elseEdge.target
  let backedge ← body.terminator.jumpEdge?
  guard (body.id ≠ header.id ∧ exit.id ≠ header.id ∧ body.id ≠ exit.id ∧
    backedge.target = header.id ∧
    (∀ b ∈ f.blocks, b.id = entry.id ∨ b.id = header.id ∨ b.id = body.id ∨ b.id = exit.id) ∧
    exit.instructions = [] ∧ exit.terminator.returnsNothing = true ∧
    entryEdge.args.length = header.params.length ∧
    thenEdge.args.length = header.params.length ∧ elseEdge.args = [] ∧
    backedge.args.length = header.params.length ∧ body.params.length = header.params.length ∧
    thenEdge.args = header.params.map (·.value))
  return ⟨entry, header, body, exit, entryEdge, backedge, condition⟩

/-- The comparison in the header, of an index with a bound. -/
def bulkCompare (f : KirFunction) (blocks : BulkBlocks) : Option (ValueId × ValueId) :=
  match blocks.header.instructions with
  | [⟨_, [result], .compare .lt index stop, _, _⟩] =>
      if result.value = blocks.condition ∧ f.scalarType? result.value = some .bool then
        some (index, stop)
      else none
  | _ => none

def indexedPointerSlot (params : List KirBlockParam) :
    KirPlace → Option (Nat × ValueId × MirType)
  | .index (.value pointer (.pointer pointee) _) index type _ =>
      if pointee = type then
        (params.findIdx? (·.value = pointer)).map fun slot ↦ (slot, index, type)
      else none
  | _ => none

def isSupportedWord (type : MirType) : Bool := type = .primitive .i32 || type = .primitive .u32

/-- What the body of a loop stores, and how it counts. -/
structure BulkBody where
  destinationSlot : Nat
  sourceSlot : Option Nat
  elementType : MirType
  storeValue : Option ValueId
  increment : KirInstruction

def bulkCopyBody (f : KirFunction) (body : KirBlock) (index : ValueId) : Option BulkBody := do
  guard (body.instructions.length = 3)
  let load ← body.instructions.find? fun i ↦ i.kind.loadPlace?.isSome
  let store ← body.instructions.find? fun i ↦ i.kind.stored?.isSome
  let increment ← body.instructions.find? fun i ↦ i.kind.isBinary
  guard (body.instructions.findIdx (fun i ↦ i.kind.loadPlace?.isSome) <
    body.instructions.findIdx fun i ↦ i.kind.stored?.isSome)
  let loaded ← single? load.results
  let sourcePlace ← load.kind.loadPlace?
  let (destinationPlace, value) ← store.kind.stored?
  guard (value = loaded.value)
  let (sourceSlot, sourceIndex, sourceElement) ← indexedPointerSlot body.params sourcePlace
  let (destinationSlot, destinationIndex, destinationElement) ←
    indexedPointerSlot body.params destinationPlace
  guard (sourceIndex = index ∧ destinationIndex = index ∧ sourceElement = destinationElement ∧
    isSupportedWord sourceElement = true ∧ f.scalarType? loaded.value = some sourceElement)
  return ⟨destinationSlot, some sourceSlot, sourceElement, none, increment⟩

def bulkFillBody (body : KirBlock) (index : ValueId) : Option BulkBody := do
  guard (body.instructions.length = 2)
  let store ← body.instructions.find? fun i ↦ i.kind.stored?.isSome
  let increment ← body.instructions.find? fun i ↦ i.kind.isBinary
  let (place, value) ← store.kind.stored?
  let (destinationSlot, storeIndex, destinationElement) ← indexedPointerSlot body.params place
  guard (storeIndex = index ∧ isSupportedWord destinationElement = true)
  return ⟨destinationSlot, none, destinationElement, some value, increment⟩

/-- The value that counts up by the constant one of the entry. -/
def bulkIncrement (f : KirFunction) (entry : KirBlock) (index : ValueId)
    (increment : KirInstruction) : Option ValueId := do
  let result ← single? increment.results
  let (incrementIndex, step) ← increment.kind.modularAdd?
  guard (incrementIndex = index ∧
    (∃ i ∈ entry.instructions, i.kind = .constInt "1" ∧ i.results = [⟨step, .scalar .u32⟩]) ∧
    f.scalarType? result.value = some .u32)
  return result.value

/-- The byte that a constant of the entry has four times. -/
def bulkFillByte (entry : KirBlock) (elementType : MirType) (value : ValueId) :
    Option (BitVec 8) := do
  let literal ← entry.instructions.findSome? fun i ↦
    (single? i.results).bind fun result ↦
      if result.value = value ∧ result.typeNode = .scalar elementType then i.kind.constIntText?
      else none
  let n ← parseInteger literal
  guard (IntegerType.i64.Contains n)
  let word := BitVec.ofInt 32 n
  let byte := LinearMemory.byteOf word 0
  guard (word = LinearMemory.wordOf byte byte byte byte)
  return byte

/-- The slots of the index and its bound, and the index in the body. -/
structure BulkSlots where
  index : Nat
  stop : Nat
  bodyIndex : ValueId

def bulkSlots (f : KirFunction) (blocks : BulkBlocks) (index stop : ValueId) :
    Option BulkSlots := do
  let indexSlot ← blocks.header.params.findIdx? (·.value = index)
  let stopSlot ← blocks.header.params.findIdx? (·.value = stop)
  guard (indexSlot ≠ stopSlot ∧ f.scalarType? index = some .u32 ∧ f.scalarType? stop = some .u32)
  let bodyIndex ← blocks.body.params[indexSlot]?
  return ⟨indexSlot, stopSlot, bodyIndex.value⟩

/-- The parameters of the function that the loop is entered with. -/
structure BulkOperands where
  destination : ValueId
  source : Option ValueId
  start : ValueId
  stop : ValueId

def bulkSource (args : List ValueId) : Option Nat → Option (Option ValueId)
  | some slot => (args[slot]?).map some
  | none => some none

def bulkOperands (f : KirFunction) (args : List ValueId) (slots : BulkSlots) (body : BulkBody) :
    Option BulkOperands := do
  guard (∀ a ∈ args, ∃ p ∈ f.params, p.value = a)
  let destination ← args[body.destinationSlot]?
  let source ← bulkSource args body.sourceSlot
  let start ← args[slots.index]?
  let stop ← args[slots.stop]?
  guard (destination ≠ start ∧ destination ≠ stop ∧ start ≠ stop ∧ source ≠ some destination)
  guard (f.scalarType? destination = some (.pointer body.elementType) ∧
    f.scalarType? start = some .u32 ∧ f.scalarType? stop = some .u32 ∧
    ∀ v ∈ source, f.scalarType? v = some (.pointer body.elementType))
  return ⟨destination, source, start, stop⟩

def bulkKind (entry : KirBlock) (body : BulkBody) (proposal : WasmBulkKind) :
    Option WasmBulkKind := do
  let kind ← match body.storeValue with
    | some value => (bulkFillByte entry body.elementType value).map .fill
    | none => if proposal = .copy then some .copy else none
  guard (proposal = match kind with
    | .copy => .copy
    | .fill _ => .fill 0)
  return kind

def bulkBody (f : KirFunction) (body : KirBlock) (index : ValueId) (isCopy : Bool) :
    Option BulkBody :=
  if isCopy then bulkCopyBody f body index else bulkFillBody body index

/-- `check_wasm_bulk_memory_candidate` -/
def checkWasmBulkMemoryCandidate (f : KirFunction) (proposal : WasmBulkKind) :
    Option CheckedWasmBulkMemory := do
  let blocks ← bulkBlocks f
  let isCopy := decide (proposal = .copy)
  guard (blocks.header.params.length = (if isCopy then 4 else 3) ∧
    f.params.length = (if isCopy then 4 else 3) ∧
    blocks.entry.instructions.length = if isCopy then 1 else 2)
  let (index, stop) ← bulkCompare f blocks
  let slots ← bulkSlots f blocks index stop
  let body ← bulkBody f blocks.body slots.bodyIndex isCopy
  let incremented ← bulkIncrement f blocks.entry slots.bodyIndex body.increment
  let operands ← bulkOperands f blocks.entryEdge.args slots body
  -- every argument of the back edge is the parameter it came from, the index counted up
  guard (blocks.backedge.args = (blocks.body.params.map (·.value)).set slots.index incremented)
  let kind ← bulkKind blocks.entry body proposal
  return ⟨kind, operands.destination, operands.source, operands.start, operands.stop, 4⟩

/-- `checked_wasm_bulk_memory_candidate` -/
def checkedWasmBulkMemoryCandidate (f : KirFunction) : Option CheckedWasmBulkMemory :=
  (proposeWasmBulkMemory f).bind (checkWasmBulkMemoryCandidate f)

/-! ## The guard -/

def minBulkElements : BitVec 32 := 16

def emitBulkRangeStart (pointer start : ValueId) (elementBytes : Nat) (target : WasmLocal) :
    List (WasmOp WasmLocal) :=
  [.localGet (.value pointer), .i64ExtendI32U, .localGet (.value start), .i64ExtendI32U,
    .i64Const (BitVec.ofNat 64 elementBytes), .i64Binary .mul, .i64Binary .add, .localSet target]

def emitBulkRangeEnd (rangeStart rangeEnd : WasmLocal) : List (WasmOp WasmLocal) :=
  [.localGet rangeStart, .localGet .bulkLength, .i64Binary .add, .localSet rangeEnd]

def emitBulkRangeIsInBounds (rangeStart rangeEnd : WasmLocal) : List (WasmOp WasmLocal) :=
  [.localGet rangeStart, .i64Const 4294967295#64, .i64Compare .leU, .localGet rangeEnd,
    .i64Const 4294967296#64, .i64Compare .leU, .i32Binary .and, .localGet rangeEnd,
    .localGet .bulkMemoryEnd, .i64Compare .leU, .i32Binary .and]

namespace CheckedWasmBulkMemory

variable (candidate : CheckedWasmBulkMemory)

/-- The start and the end of the source, for a copy. -/
def emitSourceRange : List (WasmOp WasmLocal) :=
  match candidate.source with
  | some source =>
      emitBulkRangeStart source candidate.start candidate.elementBytes .bulkSourceStart ++
        emitBulkRangeEnd .bulkSourceStart .bulkSourceEnd
  | none => []

/-- The source is in bounds, and apart from the destination. -/
def emitSourceCheck : List (WasmOp WasmLocal) :=
  match candidate.source with
  | some _ =>
      emitBulkRangeIsInBounds .bulkSourceStart .bulkSourceEnd ++
        [.i32Binary .and, .localGet .bulkSourceEnd, .localGet .bulkDestinationStart,
          .i64Compare .leU, .localGet .bulkDestinationEnd, .localGet .bulkSourceStart,
          .i64Compare .leU, .i32Binary .or, .i32Binary .and]
  | none => []

def emitBulkOperation : WasmCode WasmLocal :=
  match candidate.kind with
  | .copy => .ofOps [.localGet .bulkDestinationStart, .i32WrapI64, .localGet .bulkSourceStart,
      .i32WrapI64, .localGet .bulkLength, .i32WrapI64, .memoryCopy] .return
  | .fill byte => .ofOps [.localGet .bulkDestinationStart, .i32WrapI64,
      .i32Const (byte.setWidth 32), .localGet .bulkLength, .i32WrapI64, .memoryFill] .return

/-- `emit_wat_bulk_memory_guard` -/
def emitBulkMemoryGuard : WasmCode WasmLocal :=
  .ofOps [.localGet (.value candidate.stop), .localGet (.value candidate.start), .i32Compare .gtU,
    .localGet (.value candidate.stop), .localGet (.value candidate.start), .i32Binary .sub,
    .i32Const minBulkElements, .i32Compare .geU, .i32Binary .and] <|
  .ifThen (.ofOps [.localGet (.value candidate.stop), .i64ExtendI32U,
      .localGet (.value candidate.start), .i64ExtendI32U, .i64Binary .sub,
      .i64Const (BitVec.ofNat 64 candidate.elementBytes), .i64Binary .mul, .localTee .bulkLength,
      .i64Const 4294967295#64, .i64Compare .leU] <|
    .ifThen (.ofOps (emitBulkRangeStart candidate.destination candidate.start
          candidate.elementBytes .bulkDestinationStart ++
        emitBulkRangeEnd .bulkDestinationStart .bulkDestinationEnd ++
        candidate.emitSourceRange ++
        [.memorySize, .i64ExtendI32U, .i64Const 65536#64, .i64Binary .mul,
          .localSet .bulkMemoryEnd] ++
        emitBulkRangeIsInBounds .bulkDestinationStart .bulkDestinationEnd ++
        candidate.emitSourceCheck) <|
      .ifThen candidate.emitBulkOperation .done) .done) .done

end CheckedWasmBulkMemory

end CalcKernel
