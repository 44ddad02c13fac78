import CalcKernel.Ir.Mir

/-!
# KIR data model

Scalar SSA with block parameters, regions and explicit memory versions.  The
identity newtypes of the source wrap a `u32`; they are kept as natural numbers,
and the places that allocate them check the `u32` bound.
-/

namespace CalcKernel

abbrev FunctionId := Nat
abbrev BlockId := Nat
abbrev ValueId := Nat
abbrev InstructionId := Nat
abbrev MemoryRegionId := Nat
abbrev MemoryVersionId := Nat
abbrev FactId := Nat
abbrev ProofId := Nat
abbrev VectorRegionId := Nat
abbrev LoopId := Nat

inductive KirConsumer where
  | c | webAssembly | nativeLibrary | nativeExecutable | inspection
deriving DecidableEq, Repr

inductive KirOverflowMode where
  | unchecked | checked
deriving DecidableEq, Repr

inductive KirBoundsMode where
  | unchecked | checked
deriving DecidableEq, Repr

inductive KirSanitizerMode where
  | disabled | contracts
deriving DecidableEq, Repr

structure KirBuildConfig where
  consumer : KirConsumer
  overflowMode : KirOverflowMode
  boundsMode : KirBoundsMode
  sanitizerMode : KirSanitizerMode
deriving DecidableEq, Repr

inductive KirLaneType where
  | i32 | i64 | u32 | u64 | f64
deriving DecidableEq, Repr

inductive KirValueType where
  | scalar (typeNode : MirType)
  | fixedVector (lane : KirLaneType) (lanes : Nat)
  | mask (lanes : Nat)
deriving DecidableEq, Repr

def KirValueType.asScalar : KirValueType → Option MirType
  | .scalar t => some t
  | .fixedVector _ _ | .mask _ => none

inductive KirArithmeticSemantics where
  | modular | checked | strictFloat
deriving DecidableEq, Repr

inductive KirCheckConditionKind where
  | arithmeticOverflow | divisionByZero | signedDivisionOverflow | sliceOutOfBounds
  | invalidSubslice
deriving DecidableEq, Repr

inductive KirFailureKind where
  | overflow | divisionByZero | outOfBounds | contractViolation
deriving DecidableEq, Repr

inductive KirMemoryRegionOrigin where
  | conservative
  | parameter (value : ValueId)
  | rawSlice (value : ValueId)
  | subslice (value : ValueId)
deriving DecidableEq, Repr

/-- The value a region originates from. -/
def KirMemoryRegionOrigin.value? : KirMemoryRegionOrigin → Option ValueId
  | .conservative => none
  | .parameter v | .rawSlice v | .subslice v => some v

structure KirSymbolicByteInterval where
  start : ValueId
  stop : ValueId
  elementType : MirType
deriving DecidableEq, Repr

structure KirMemoryRegion where
  id : MemoryRegionId
  origin : KirMemoryRegionOrigin
  parent : Option MemoryRegionId
  partition : MemoryRegionId
  byteInterval : Option KirSymbolicByteInterval
deriving DecidableEq, Repr

structure KirInitialMemory where
  region : MemoryRegionId
  version : MemoryVersionId
deriving DecidableEq, Repr

inductive KirPlace where
  | value (value : ValueId) (typeNode : MirType) (region : MemoryRegionId)
  | deref (pointer : ValueId) (typeNode : MirType) (region : MemoryRegionId)
  | index (base : KirPlace) (index : ValueId) (typeNode : MirType) (region : MemoryRegionId)
  | sliceIndex (slice index : ValueId) (typeNode : MirType) (region : MemoryRegionId)
  | field (base : KirPlace) (fieldName : String) (typeNode : MirType) (region : MemoryRegionId)
deriving DecidableEq, Repr

/-- `place_region`: the region recorded on a place. -/
def KirPlace.region : KirPlace → MemoryRegionId
  | .value _ _ r | .deref _ _ r | .index _ _ _ r | .sliceIndex _ _ _ r | .field _ _ _ r => r

def KirPlace.typeNode : KirPlace → MirType
  | .value _ t _ | .deref _ t _ | .index _ _ t _ | .sliceIndex _ _ t _ | .field _ _ t _ => t

inductive KirVersionPredicateConjunct where
  | tripThreshold (value : ValueId) (minimum : Nat)
  | addressIntervalsDisjoint (left leftCount : ValueId) (leftElementBytes : Nat)
      (right rightCount : ValueId) (rightElementBytes : Nat)
  | wasmSliceRange (slice start count : ValueId) (elementBytes : Nat)
deriving DecidableEq, Repr

structure KirVersionPredicate where
  addressBits : Nat
  conjuncts : List KirVersionPredicateConjunct
deriving DecidableEq, Repr

inductive KirVectorBinaryOp where
  | add | subtract | multiply | divide | remainder
deriving DecidableEq, Repr

inductive KirVectorUnaryOp where
  | negate | maskNot
deriving DecidableEq, Repr

inductive KirVectorCastOp where
  | i32ToF64 | u32ToF64
deriving DecidableEq, Repr

inductive KirVectorReductionOp where
  | modularAdd | modularMultiply | modularMin | modularMax
deriving DecidableEq, Repr

structure KirVectorMemoryAccess where
  slice : ValueId
  start : ValueId
  stop : ValueId
  lane : KirLaneType
  lanes : Nat
  byteFootprint : Nat
  knownAlignment : Nat
  requiredAlignment : Nat
deriving DecidableEq, Repr

inductive KirInstructionKind where
  | undef (slot : String)
  | constInt (value : String)
  | constFloat (value : String)
  | constBool (value : Bool)
  | copy (value : ValueId)
  | binary (op : MirBinaryOp) (left right : ValueId) (semantics : KirArithmeticSemantics)
  | unary (op : MirUnaryOp) (operand : ValueId) (semantics : KirArithmeticSemantics)
  | compare (op : MirCompareOp) (left right : ValueId)
  | cast (op : MirCastOp) (value : ValueId)
  | checkCondition (kind : KirCheckConditionKind) (args : List ValueId)
  | guard (condition : ValueId) (failure : KirFailureKind)
  | address (place : KirPlace)
  | load (place : KirPlace)
  | store (place : KirPlace) (value : ValueId)
  | makeSlice (data len : ValueId)
  | sliceData (slice : ValueId)
  | sliceLen (slice : ValueId)
  | subslice (slice start stop : ValueId)
  | call (functionName : String) (args : List ValueId)
  | runtimeCall (intrinsic : MirRuntimeIntrinsic) (args : List ValueId)
  | versionPredicate (predicate : KirVersionPredicate)
  | vectorSplat (scalar : ValueId) (region : VectorRegionId)
  | vectorLoad (access : KirVectorMemoryAccess) (region : VectorRegionId)
  | vectorStore (access : KirVectorMemoryAccess) (value : ValueId) (region : VectorRegionId)
  | vectorBinary (op : KirVectorBinaryOp) (left right : ValueId)
      (semantics : KirArithmeticSemantics) (noFailureProof : Option ProofId)
      (region : VectorRegionId)
  | vectorUnary (op : KirVectorUnaryOp) (operand : ValueId)
      (semantics : KirArithmeticSemantics) (noFailureProof : Option ProofId)
      (region : VectorRegionId)
  | vectorCompare (op : MirCompareOp) (left right : ValueId) (region : VectorRegionId)
  | vectorSelect (mask whenTrue whenFalse : ValueId) (region : VectorRegionId)
  | vectorCast (op : KirVectorCastOp) (value : ValueId) (region : VectorRegionId)
  | vectorInsert (vector scalar : ValueId) (laneIndex : Nat) (region : VectorRegionId)
  | vectorExtract (vector : ValueId) (laneIndex : Nat) (region : VectorRegionId)
  | vectorReduce (op : KirVectorReductionOp) (vector : ValueId)
      (semantics : KirArithmeticSemantics) (region : VectorRegionId)
deriving DecidableEq, Repr

structure KirMemoryAccess where
  region : MemoryRegionId
  input : MemoryVersionId
  output : Option MemoryVersionId
deriving DecidableEq, Repr

inductive KirEffectKind where
  | readMemory | writeMemory | mayFail | runtime | call | return
deriving DecidableEq, Repr

structure KirOrderedEffect where
  order : Nat
  kind : KirEffectKind
deriving DecidableEq, Repr

structure KirResult where
  value : ValueId
  typeNode : KirValueType
deriving DecidableEq, Repr

structure KirInstruction where
  id : InstructionId
  results : List KirResult
  kind : KirInstructionKind
  memory : Option KirMemoryAccess
  effect : Option KirOrderedEffect
deriving DecidableEq, Repr

/-- The values an instruction defines. -/
def KirInstruction.defs (i : KirInstruction) : List ValueId := i.results.map (·.value)

@[simp] theorem KirInstruction.defs_mk (id : InstructionId) (results : List KirResult)
    (kind : KirInstructionKind) (memory : Option KirMemoryAccess)
    (effect : Option KirOrderedEffect) :
    (⟨id, results, kind, memory, effect⟩ : KirInstruction).defs = results.map (·.value) := rfl

structure KirEdge where
  target : BlockId
  args : List ValueId
  memoryArgs : List MemoryVersionId
deriving DecidableEq, Repr

inductive KirTerminator where
  | return (value : Option ValueId) (memory : List (MemoryRegionId × MemoryVersionId))
      (effectOrder : Nat)
  | jump (edge : KirEdge)
  | branch (condition : ValueId) (thenEdge elseEdge : KirEdge)
deriving DecidableEq, Repr

/-- `terminator_edges`, in source order. -/
def KirTerminator.edges : KirTerminator → List KirEdge
  | .return _ _ _ => []
  | .jump edge => [edge]
  | .branch _ thenEdge elseEdge => [thenEdge, elseEdge]

/-- `terminator_successors`. -/
def KirTerminator.successors (t : KirTerminator) : List BlockId :=
  t.edges.map (·.target)

structure KirBlockParam where
  value : ValueId
  slot : String
  typeNode : KirValueType
deriving DecidableEq, Repr

structure KirMemoryBlockParam where
  version : MemoryVersionId
  region : MemoryRegionId
deriving DecidableEq, Repr

structure KirBlock where
  id : BlockId
  label : String
  params : List KirBlockParam
  memoryParams : List KirMemoryBlockParam
  instructions : List KirInstruction
  terminator : KirTerminator
deriving DecidableEq, Repr

structure KirParam where
  value : ValueId
  name : String
  typeNode : MirType
deriving DecidableEq, Repr

structure KirVectorRegion where
  id : VectorRegionId
  blocks : List BlockId
deriving DecidableEq, Repr

structure KirFunction where
  id : FunctionId
  name : String
  exported : Bool
  params : List KirParam
  returnType : MirType
  regions : List KirMemoryRegion
  initialMemory : List KirInitialMemory
  vectorRegions : List KirVectorRegion
  blocks : List KirBlock
deriving DecidableEq, Repr

/-- A KIR module.  The target profile is read by the vector checks only and stays with them. -/
structure KirModule where
  config : KirBuildConfig
  entry : Option MirEntryPoint
  structs : List MirStruct
  functions : List KirFunction
deriving DecidableEq, Repr

namespace KirFunction

def block? (f : KirFunction) (id : BlockId) : Option KirBlock :=
  f.blocks.find? (·.id = id)

def instructions (f : KirFunction) : List KirInstruction :=
  f.blocks.flatMap (·.instructions)

/-- Every value the function defines, in the order the source's collectors visit them. -/
def valueIds (f : KirFunction) : List ValueId :=
  f.params.map (·.value) ++ f.blocks.flatMap fun b ↦
    b.params.map (·.value) ++ b.instructions.flatMap (·.defs)

theorem mem_blocks_of_block? {f : KirFunction} {id : BlockId} {b : KirBlock}
    (h : f.block? id = some b) : b ∈ f.blocks ∧ b.id = id := by
  have hb := List.find?_some h
  exact ⟨List.mem_of_find?_eq_some h, by simpa using hb⟩

end KirFunction

/-- A region and its ancestors. -/
inductive KirFunction.Within (f : KirFunction) : MemoryRegionId → MemoryRegionId → Prop
  | self (r : MemoryRegionId) : f.Within r r
  | parent {q p r : MemoryRegionId} {region : KirMemoryRegion} (h : region ∈ f.regions)
      (hid : region.id = q) (hparent : region.parent = some p) (hp : f.Within p r) : f.Within q r

def KirFunction.IsConservative (f : KirFunction) (r : MemoryRegionId) : Prop :=
  ∃ region ∈ f.regions, region.id = r ∧ region.origin = .conservative

namespace KirModule

def function? (m : KirModule) (name : String) : Option KirFunction :=
  m.functions.find? (·.name = name)

/-- The function of a module that has one. -/
def first (m : KirModule) : KirFunction :=
  m.functions.headD ⟨0, "", false, [], .void, [], [], [], []⟩

theorem mem_functions_of_function? {m : KirModule} {name : String} {f : KirFunction}
    (h : m.function? name = some f) : f ∈ m.functions ∧ f.name = name := by
  have hf := List.find?_some h
  exact ⟨List.mem_of_find?_eq_some h, by simpa using hf⟩

end KirModule

end CalcKernel
