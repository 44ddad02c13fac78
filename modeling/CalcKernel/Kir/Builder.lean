import CalcKernel.Kir.Model

/-!
# KIR construction

`build_function` turns named locals into block parameters.  The map from names to
SSA values is reset to the block parameters at every block; the map from names to
memory regions is carried from one block to the next in layout order.  Both maps
are functions with finite support here.
-/

namespace CalcKernel

inductive MirValueName where
  | param (name : String)
  | local (name : String)
  | temp (name : String)
  | constInt (text : String) (type : MirType)
  | constFloat (text : String) (type : MirType)
  | constBool (value : Bool) (type : MirType)
deriving DecidableEq, Repr

def valueName : MirValue → MirValueName
  | .param name _ => .param name
  | .local name _ => .local name
  | .temp name _ => .temp name
  | .constInt text type => .constInt text type
  | .constFloat text type => .constFloat text type
  | .constBool value type => .constBool value type

def printPrimitiveType : MirPrimitiveTypeName → String
  | .i32 => "i32"
  | .i64 => "i64"
  | .u32 => "u32"
  | .u64 => "u64"
  | .f64 => "f64"
  | .bool => "bool"

def printMirType : MirType → String
  | .primitive name => printPrimitiveType name
  | .pointer element => "ptr<" ++ printMirType element ++ ">"
  | .slice element => "slice<" ++ printMirType element ++ ">"
  | .struct name => name
  | .void => "void"

def printValueName : MirValue → String
  | .param name _ | .local name _ | .temp name _ => name
  | .constInt _ type | .constFloat _ type | .constBool _ type => "constant " ++ printMirType type

abbrev KirBuild (α : Type) := Except String α

/-- The next identity of each kind.  They are shared by all functions of a module. -/
structure KirIds where
  function : Nat := 0
  block : Nat := 0
  value : Nat := 0
  instruction : Nat := 0
  region : Nat := 0
  memory : Nat := 0
deriving DecidableEq, Repr

def isIntegerType : MirType → Bool
  | .primitive .i32 | .primitive .i64 | .primitive .u32 | .primitive .u64 => true
  | _ => false

def isSignedIntegerType : MirType → Bool
  | .primitive .i32 | .primitive .i64 => true
  | _ => false

def isMemoryOriginType : MirType → Bool
  | .pointer _ | .slice _ => true
  | _ => false

def arithmeticSemantics (type : MirType) (config : KirBuildConfig) : KirArithmeticSemantics :=
  if type = .f64 then .strictFloat
  else if config.overflowMode = .checked then .checked
  else .modular

structure InstructionBuilder where
  ids : KirIds
  values : MirValueName → Option ValueId
  valueRegions : MirValueName → Option MemoryRegionId
  regions : List KirMemoryRegion
  currentMemory : MemoryVersionId
  effectOrder : Nat
  instructions : List KirInstruction

namespace InstructionBuilder

variable (b : InstructionBuilder)

def lookupValue (value : MirValue) : KirBuild ValueId :=
  match b.values (valueName value) with
  | some v => .ok v
  | none => .error ("MIR value '" ++ printValueName value ++ "' is used before its KIR definition")

def regionOf (conservative : MemoryRegionId) (name : MirValueName) : MemoryRegionId :=
  (b.valueRegions name).getD conservative

def setValue (name : MirValueName) (v : ValueId) : InstructionBuilder :=
  { b with values := Function.update b.values name (some v) }

/-- `update_value_region`, and `insert` when a region is given. -/
def setRegion (name : MirValueName) (region : Option MemoryRegionId) : InstructionBuilder :=
  { b with valueRegions := Function.update b.valueRegions name region }

def push (results : List KirResult) (kind : KirInstructionKind) (memory : Option KirMemoryAccess)
    (effect : Option KirOrderedEffect) : InstructionBuilder :=
  { b with
    ids := { b.ids with instruction := b.ids.instruction + 1 }
    instructions := b.instructions ++ [⟨b.ids.instruction, results, kind, memory, effect⟩] }

def takeValue : InstructionBuilder :=
  { b with ids := { b.ids with value := b.ids.value + 1 } }

def takeMemory : InstructionBuilder :=
  { b with ids := { b.ids with memory := b.ids.memory + 1 } }

/-- The order of the next effect is taken. -/
def takeEffect : InstructionBuilder := { b with effectOrder := b.effectOrder + 1 }

def nextEffect (kind : KirEffectKind) : KirOrderedEffect := ⟨b.effectOrder, kind⟩

/-- The result value is `b.ids.value`. -/
def defineInstructionResult (target : MirValue) (kind : KirInstructionKind) : InstructionBuilder :=
  ((b.takeValue.setValue (valueName target) b.ids.value).push
    [⟨b.ids.value, .scalar target.typeNode⟩] kind none none)

/-- A checked operation with its overflow flag, and the guard on the flag. -/
def defineCheckedResult (target : MirValue) (kind : KirInstructionKind) : InstructionBuilder :=
  let pushed := (b.takeValue.takeValue.setValue (valueName target) b.ids.value).push
    [⟨b.ids.value, .scalar target.typeNode⟩, ⟨b.ids.value + 1, .scalar .bool⟩] kind none none
  (pushed.push [] (.guard (b.ids.value + 1) .overflow) none
    (some (pushed.nextEffect .mayFail))).takeEffect

/-- A check instruction and the guard on its result. -/
def pushCheck (kind : KirCheckConditionKind) (args : List ValueId) (failure : KirFailureKind) :
    InstructionBuilder :=
  let checked := b.takeValue.push [⟨b.ids.value, .scalar .bool⟩] (.checkCondition kind args) none none
  (checked.push [] (.guard b.ids.value failure) none
    (some (checked.nextEffect .mayFail))).takeEffect

def pushRegion (origin : KirMemoryRegionOrigin) (parent : Option MemoryRegionId)
    (conservative : MemoryRegionId) (interval : Option KirSymbolicByteInterval) :
    InstructionBuilder :=
  { b with
    ids := { b.ids with region := b.ids.region + 1 }
    regions := b.regions ++ [⟨b.ids.region, origin, parent, conservative, interval⟩] }

end InstructionBuilder

open InstructionBuilder in
/-- `build_place`: the place, after the bounds checks it needs. -/
def buildPlace (config : KirBuildConfig) (conservative : MemoryRegionId) :
    MirPlace → InstructionBuilder → KirBuild (KirPlace × InstructionBuilder)
  | .param name type, b =>
      match b.values (.param name) with
      | some v => .ok (.value v type (b.regionOf conservative (.param name)), b)
      | none => .error ("MIR parameter place '" ++ name ++ "' has no SSA value")
  | .local name type, b =>
      match b.values (.local name) with
      | some v => .ok (.value v type (b.regionOf conservative (.local name)), b)
      | none => .error ("MIR local place '" ++ name ++ "' has no SSA value")
  | .deref pointer type, b => do
      let p ← b.lookupValue pointer
      return (.deref p type (b.regionOf conservative (valueName pointer)), b)
  | .index base index type, b => do
      let (place, b) ← buildPlace config conservative base b
      let i ← b.lookupValue index
      return (.index place i type place.region, b)
  | .sliceIndex slice index type, b => do
      let s ← b.lookupValue slice
      let i ← b.lookupValue index
      let b :=
        if config.boundsMode = .checked then b.pushCheck .sliceOutOfBounds [s, i] .outOfBounds
        else b
      return (.sliceIndex s i type (b.regionOf conservative (valueName slice)), b)
  | .field base name type, b => do
      let (place, b) ← buildPlace config conservative base b
      return (.field place name type place.region, b)

namespace InstructionBuilder

variable (b : InstructionBuilder) (config : KirBuildConfig) (conservative : MemoryRegionId)

def buildMove (target value : MirValue) : KirBuild InstructionBuilder := do
  let source ← b.lookupValue value
  let region := b.valueRegions (valueName value)
  match target with
  | .param _ _ | .local _ _ =>
      return (b.setValue (valueName target) source).setRegion (valueName target) region
  | _ =>
      return (b.defineInstructionResult target (.copy source)).setRegion (valueName target) region

def buildUnary (target : MirValue) (op : MirUnaryOp) (operand : MirValue) :
    KirBuild InstructionBuilder := do
  let v ← b.lookupValue operand
  let semantics := arithmeticSemantics target.typeNode config
  if semantics = .checked ∧ op = .neg ∧ isIntegerType target.typeNode then
    return b.defineCheckedResult target (.unary op v semantics)
  else
    return b.defineInstructionResult target (.unary op v semantics)

def buildBinary (target : MirValue) (op : MirBinaryOp) (left right : MirValue) :
    KirBuild InstructionBuilder := do
  let l ← b.lookupValue left
  let r ← b.lookupValue right
  let semantics := arithmeticSemantics target.typeNode config
  let kind := KirInstructionKind.binary op l r semantics
  if semantics = .checked ∧ isIntegerType target.typeNode then
    match op with
    | .add | .sub | .mul => return b.defineCheckedResult target kind
    | .div | .mod =>
        let b := b.pushCheck .divisionByZero [r] .divisionByZero
        let b :=
          if isSignedIntegerType target.typeNode then
            b.pushCheck .signedDivisionOverflow [l, r] .overflow
          else b
        return b.defineInstructionResult target kind
  else
    return b.defineInstructionResult target kind

def buildAddress (target : MirValue) (place : MirPlace) : KirBuild InstructionBuilder := do
  let (p, b) ← buildPlace config conservative place b
  return (b.defineInstructionResult target (.address p)).setRegion (valueName target)
    (some p.region)

def buildLoad (target : MirValue) (place : MirPlace) : KirBuild InstructionBuilder := do
  let (p, b) ← buildPlace config conservative place b
  let memory : KirMemoryAccess := ⟨conservative, b.currentMemory, none⟩
  return ((b.takeValue.setValue (valueName target) b.ids.value).push
    [⟨b.ids.value, .scalar target.typeNode⟩] (.load p) (some memory)
    (some (b.nextEffect .readMemory))).takeEffect

def buildStore (place : MirPlace) (value : MirValue) : KirBuild InstructionBuilder := do
  let (p, b) ← buildPlace config conservative place b
  let v ← b.lookupValue value
  let memory : KirMemoryAccess := ⟨conservative, b.currentMemory, some b.ids.memory⟩
  return { (b.takeMemory.push [] (.store p v) (some memory)
      (some (b.nextEffect .writeMemory))).takeEffect with currentMemory := b.ids.memory }

def buildMakeSlice (target data len : MirValue) : KirBuild InstructionBuilder := do
  let d ← b.lookupValue data
  let n ← b.lookupValue len
  let defined := b.defineInstructionResult target (.makeSlice d n)
  let parent := defined.valueRegions (valueName data)
  return (defined.pushRegion (.rawSlice b.ids.value) parent conservative none).setRegion
    (valueName target) (some defined.ids.region)

def buildSliceData (target slice : MirValue) : KirBuild InstructionBuilder := do
  let s ← b.lookupValue slice
  let defined := b.defineInstructionResult target (.sliceData s)
  return defined.setRegion (valueName target) (defined.valueRegions (valueName slice))

def buildSubslice (target slice start stop : MirValue) : KirBuild InstructionBuilder := do
  let s ← b.lookupValue slice
  let lo ← b.lookupValue start
  let hi ← b.lookupValue stop
  let checked :=
    if config.boundsMode = .checked then b.pushCheck .invalidSubslice [s, lo, hi] .outOfBounds
    else b
  let defined := checked.defineInstructionResult target (.subslice s lo hi)
  let parent := defined.valueRegions (valueName slice)
  match target.typeNode with
  | .slice element =>
      return (defined.pushRegion (.subslice checked.ids.value) parent conservative
        (some ⟨lo, hi, element⟩)).setRegion (valueName target) (some defined.ids.region)
  | _ => .error "MIR subslice result does not have slice type"

/-- The result of a call is bound before the call is pushed. -/
def bindCallResult : Option MirValue → List KirResult × InstructionBuilder
  | none => ([], b)
  | some target =>
      ([⟨b.ids.value, .scalar target.typeNode⟩],
        b.takeValue.setValue (valueName target) b.ids.value)

def buildCall (target : Option MirValue) (functionName : String) (args : List MirValue) :
    KirBuild InstructionBuilder := do
  let vs ← args.mapM b.lookupValue
  let (results, bound) := b.bindCallResult target
  let memory : KirMemoryAccess := ⟨conservative, bound.currentMemory, some bound.ids.memory⟩
  return { (bound.takeMemory.push results (.call functionName vs) (some memory)
      (some (bound.nextEffect .call))).takeEffect with currentMemory := bound.ids.memory }

def buildRuntimeCall (intrinsic : MirRuntimeIntrinsic) (args : List MirValue) :
    KirBuild InstructionBuilder := do
  let vs ← args.mapM b.lookupValue
  return (b.push [] (.runtimeCall intrinsic vs) none (some (b.nextEffect .runtime))).takeEffect

/-- `InstructionBuilder::build`. -/
def build : MirInstruction → KirBuild InstructionBuilder
  | .constInt target value => return b.defineInstructionResult target (.constInt value)
  | .constFloat target value => return b.defineInstructionResult target (.constFloat value)
  | .constBool target value => return b.defineInstructionResult target (.constBool value)
  | .move target value => b.buildMove target value
  | .unary target op operand => b.buildUnary config target op operand
  | .compare target op left right => do
      let l ← b.lookupValue left
      let r ← b.lookupValue right
      return b.defineInstructionResult target (.compare op l r)
  | .cast target op value => do
      let v ← b.lookupValue value
      return b.defineInstructionResult target (.cast op v)
  | .binary target op left right => b.buildBinary config target op left right
  | .address target place => b.buildAddress config conservative target place
  | .load target place => b.buildLoad config conservative target place
  | .store place value => b.buildStore config conservative place value
  | .makeSlice target data len => b.buildMakeSlice conservative target data len
  | .sliceData target slice => b.buildSliceData target slice
  | .sliceLen target slice => do
      let s ← b.lookupValue slice
      return b.defineInstructionResult target (.sliceLen s)
  | .subslice target slice start stop => b.buildSubslice config conservative target slice start stop
  | .call target functionName args => b.buildCall conservative target functionName args
  | .runtimeCall intrinsic args => b.buildRuntimeCall intrinsic args

end InstructionBuilder

/-! ## Functions -/

namespace MirPlace

/-- `visit_place_values`. -/
def values : MirPlace → List MirValue
  | .param _ _ | .local _ _ => []
  | .deref pointer _ => [pointer]
  | .index base i _ => base.values ++ [i]
  | .sliceIndex slice i _ => [slice, i]
  | .field base _ _ => base.values

end MirPlace

namespace MirInstruction

/-- `visit_instruction_values`, in visiting order. -/
def values : MirInstruction → List MirValue
  | .constInt target _ | .constFloat target _ | .constBool target _ => [target]
  | .move target value | .cast target _ value | .sliceData target value
  | .sliceLen target value | .unary target _ value => [target, value]
  | .binary target _ left right | .compare target _ left right => [target, left, right]
  | .address target place | .load target place => target :: place.values
  | .store place value => place.values ++ [value]
  | .makeSlice target data len => [target, data, len]
  | .subslice target slice start stop => [target, slice, start, stop]
  | .call target _ args => target.toList ++ args
  | .runtimeCall _ args => args

end MirInstruction

def MirTerminator.values : MirTerminator → List MirValue
  | .return value => value.toList
  | .jump _ => []
  | .branch condition _ _ => [condition]

def MirValue.isConstant : MirValue → Bool
  | .constInt _ _ | .constFloat _ _ | .constBool _ _ => true
  | .param _ _ | .local _ _ | .temp _ _ => false

/-- `inline_constants`: each constant operand once, in order of first occurrence. -/
def inlineConstants (f : MirFunction) : List MirValue :=
  (f.blocks.flatMap fun b ↦ b.instructions.flatMap (·.values) ++ b.terminator.values).foldl
    (fun seen v ↦
      if v.isConstant ∧ valueName v ∉ seen.map valueName then seen ++ [v] else seen) []

abbrev Slot := MirValueName × String × MirType

def MirFunction.slots (f : MirFunction) : List Slot :=
  f.params.map (fun p ↦ (.param p.name, p.name, p.typeNode)) ++
    f.locals.map fun l ↦ (.local l.name, l.name, l.typeNode)

namespace InstructionBuilder

variable (conservative : MemoryRegionId)

/-- A pointer or slice parameter originates a region of its own. -/
def bindParam (b : InstructionBuilder) (param : MirParam) : InstructionBuilder :=
  let bound := b.takeValue.setValue (.param param.name) b.ids.value
  if isMemoryOriginType param.typeNode then
    (bound.pushRegion (.parameter b.ids.value) none conservative none).setRegion
      (.param param.name) (some bound.ids.region)
  else bound

/-- A local holds no value at entry. -/
def bindLocal (b : InstructionBuilder) (l : MirLocal) : InstructionBuilder :=
  (b.takeValue.setValue (.local l.name) b.ids.value).push
    [⟨b.ids.value, .scalar l.typeNode⟩] (.undef l.name) none none

def constantKind : MirValue → KirInstructionKind
  | .constInt text _ => .constInt text
  | .constFloat text _ => .constFloat text
  | .constBool value _ => .constBool value
  | .param name _ | .local name _ | .temp name _ => .undef name

def bindConstant (b : InstructionBuilder) (constant : MirValue) : InstructionBuilder :=
  b.defineInstructionResult constant (constantKind constant)

end InstructionBuilder

/-- The parameters of a block: one for each slot. -/
def slotParams (slots : List Slot) (first : ValueId) : List KirBlockParam :=
  slots.mapIdx fun j slot ↦ ⟨first + j, slot.2.1, .scalar slot.2.2⟩

/-- What a block starts from: every slot names its block parameter. -/
def bindSlots (values : MirValueName → Option ValueId) :
    List (Slot × KirBlockParam) → MirValueName → Option ValueId
  | [] => values
  | (slot, param) :: rest => bindSlots (Function.update values slot.1 (some param.value)) rest

/-- `build_edge`. -/
def buildEdge (label : String) (values : MirValueName → Option ValueId) (slots : List Slot)
    (blockIds : String → Option BlockId) (currentMemory : MemoryVersionId) : KirBuild KirEdge := do
  let target ←
    match blockIds label with
    | some id => Except.ok id
    | none => Except.error ("MIR edge names missing block '" ++ label ++ "'")
  let args ← slots.mapM fun slot ↦
    match values slot.1 with
    | some v => Except.ok v
    | none =>
        Except.error ("MIR slot '" ++ slot.2.1 ++ "' has no value on edge to '" ++ label ++ "'")
  return ⟨target, args, [currentMemory]⟩

/-- `build_terminator`. -/
def buildTerminator (terminator : MirTerminator) (b : InstructionBuilder) (slots : List Slot)
    (blockIds : String → Option BlockId) (conservative : MemoryRegionId) :
    KirBuild (KirTerminator × InstructionBuilder) := do
  match terminator with
  | .return value =>
      let v ← value.mapM b.lookupValue
      return (.return v [(conservative, b.currentMemory)] b.effectOrder, b.takeEffect)
  | .jump label =>
      let edge ← buildEdge label b.values slots blockIds b.currentMemory
      return (.jump edge, b)
  | .branch condition thenLabel elseLabel =>
      let c ← b.lookupValue condition
      let thenEdge ← buildEdge thenLabel b.values slots blockIds b.currentMemory
      let elseEdge ← buildEdge elseLabel b.values slots blockIds b.currentMemory
      return (.branch c thenEdge elseEdge, b)

def buildInstructions (config : KirBuildConfig) (conservative : MemoryRegionId) :
    List MirInstruction → InstructionBuilder → KirBuild InstructionBuilder
  | [], b => .ok b
  | i :: rest, b => do
      let b ← b.build config conservative i
      buildInstructions config conservative rest b

/-- Identities shared by the blocks of one function.  Block `j > 0` gets the parameters from
`firstParam + (j - 1) * slots.length` on. -/
structure BlockPlan where
  config : KirBuildConfig
  conservative : MemoryRegionId
  slots : List Slot
  blockIds : String → Option BlockId
  firstParam : ValueId
  firstMemory : MemoryVersionId

namespace BlockPlan

variable (plan : BlockPlan)

def params (index : Nat) : List KirBlockParam :=
  if index = 0 then []
  else slotParams plan.slots (plan.firstParam + (index - 1) * plan.slots.length)

def memoryParams (index : Nat) : List KirMemoryBlockParam :=
  if index = 0 then [] else [⟨plan.firstMemory + (index - 1), plan.conservative⟩]

/-- The builder at the head of a block.  Only the entry keeps what it has; the region map is
kept everywhere. -/
def openBlock (index : Nat) (b : InstructionBuilder) : InstructionBuilder :=
  if index = 0 then b
  else
    { b with
      values := bindSlots b.values (plan.slots.zip (plan.params index))
      currentMemory := plan.firstMemory + (index - 1)
      instructions := [] }

def buildBlock (index : Nat) (block : MirBlock) (b : InstructionBuilder) :
    KirBuild (KirBlock × InstructionBuilder) := do
  let built ← buildInstructions plan.config plan.conservative block.instructions
    (plan.openBlock index b)
  let (terminator, closed) ← buildTerminator block.terminator built plan.slots plan.blockIds
    plan.conservative
  match plan.blockIds block.label with
  | some id =>
      return (⟨id, block.label, plan.params index, plan.memoryParams index, built.instructions,
        terminator⟩, closed)
  | none => .error ("missing KIR block id for '" ++ block.label ++ "'")

def buildBlocks : Nat → List MirBlock → InstructionBuilder →
    KirBuild (List KirBlock × InstructionBuilder)
  | _, [], b => .ok ([], b)
  | index, block :: rest, b => do
      let (built, b) ← plan.buildBlock index block b
      let (blocks, b) ← buildBlocks (index + 1) rest b
      return (built :: blocks, b)

end BlockPlan

/-- Block labels to identities; of two blocks with one label the later wins. -/
def blockIdMap (first : BlockId) (blocks : List MirBlock) : String → Option BlockId := fun label ↦
  ((blocks.mapIdx fun j block ↦ (block.label, first + j)).reverse.lookup label)

/-- The builder before any parameter is bound; the conservative region is the first. -/
def openFunction (ids : KirIds) : InstructionBuilder :=
  { ids := { ids with
      function := ids.function + 1, region := ids.region + 1, memory := ids.memory + 1 }
    values := fun _ ↦ none
    valueRegions := fun _ ↦ none
    regions := [⟨ids.region, .conservative, none, ids.region, none⟩]
    currentMemory := ids.memory
    effectOrder := 0
    instructions := [] }

/-- The builder at the head of the entry block: parameters, locals, then constants. -/
def entryBuilder (f : MirFunction) (ids : KirIds) : InstructionBuilder :=
  let params := f.params.foldl (·.bindParam ids.region) (openFunction ids)
  let locals := f.locals.foldl (·.bindLocal) params
  (inlineConstants f).foldl (·.bindConstant) locals

def blockPlan (f : MirFunction) (config : KirBuildConfig) (ids : KirIds) : BlockPlan :=
  let entry := entryBuilder f ids
  { config := config
    conservative := ids.region
    slots := f.slots
    blockIds := blockIdMap entry.ids.block f.blocks
    firstParam := entry.ids.value
    firstMemory := entry.ids.memory }

/-- The identities left once every block has its id and its parameters. -/
def reserveBlocks (f : MirFunction) (b : InstructionBuilder) : InstructionBuilder :=
  { b with
    ids := { b.ids with
      block := b.ids.block + f.blocks.length
      value := b.ids.value + (f.blocks.length - 1) * f.slots.length
      memory := b.ids.memory + (f.blocks.length - 1) } }

/-- `build_function`. -/
def buildFunction (f : MirFunction) (config : KirBuildConfig) (ids : KirIds) :
    KirBuild (KirFunction × KirIds) := do
  if f.blocks = [] then
    .error ("MIR function '" ++ f.name ++ "' has no entry block")
  else
    let (blocks, b) ← (blockPlan f config ids).buildBlocks 0 f.blocks
      (reserveBlocks f (entryBuilder f ids))
    return ({ id := ids.function
              name := f.name
              exported := f.exported
              params := f.params.mapIdx fun j p ↦ ⟨ids.value + j, p.name, p.typeNode⟩
              returnType := f.returnType
              regions := b.regions
              initialMemory := [⟨ids.region, ids.memory⟩]
              vectorRegions := []
              blocks := blocks }, b.ids)

def buildFunctions (config : KirBuildConfig) :
    List MirFunction → KirIds → KirBuild (List KirFunction × KirIds)
  | [], ids => .ok ([], ids)
  | f :: rest, ids => do
      let (built, ids) ← buildFunction f config ids
      let (functions, ids) ← buildFunctions config rest ids
      return (built :: functions, ids)

/-- `validate_build_config`. -/
def validateBuildConfig (config : KirBuildConfig) : KirBuild Unit :=
  if config.consumer = .webAssembly ∧ config.overflowMode = .checked then
    .error "WebAssembly KIR consumer does not support checked overflow mode."
  else if config.consumer = .webAssembly ∧ config.boundsMode = .checked then
    .error "WebAssembly KIR consumer does not support checked bounds mode."
  else if config.sanitizerMode = .contracts ∧ config.consumer ≠ .nativeExecutable then
    .error "Contract sanitizer KIR is supported only for native executable consumers."
  else .ok ()

/-- `build_kir_module` on the artifact that was prepared for the consumer. -/
def buildKirModule (artifact : MirModule) (config : KirBuildConfig) : KirBuild KirModule := do
  validateBuildConfig config
  let (functions, _) ← buildFunctions config artifact.functions {}
  return ⟨config, artifact.entry, artifact.structs, functions⟩

end CalcKernel
