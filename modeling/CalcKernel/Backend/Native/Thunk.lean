import CalcKernel.Backend.Native.Abi
import CalcKernel.Lib.ArgumentPassing

/-!
# Export thunks

The signature of the function under which an export is called from C, the attributes of
its parameters, and the order in which its body reads them.
-/

namespace CalcKernel

open Lib

abbrev NativeError := String

inductive NativeType where
  | void
  | int (bits : Nat)
  | f64
  | pointer
  | slice
  | struct (name : String)
  | literalStruct (fields : List NativeType)
deriving Repr

/-- `TypeRegistry::get` -/
def nativeType (structs : List MirStruct) : MirType → Except NativeError NativeType
  | .void => .ok .void
  | .primitive .bool => .ok (.int 1)
  | .primitive .i32 | .primitive .u32 => .ok (.int 32)
  | .primitive .i64 | .primitive .u64 => .ok (.int 64)
  | .primitive .f64 => .ok .f64
  | .pointer _ => .ok .pointer
  | .slice _ => .ok .slice
  | .struct name =>
      if structs.any (·.name = name) then .ok (.struct name)
      else .error s!"unknown MIR struct type '{name}'"

structure ParameterBinding where
  sourceType : MirType
  sourceNativeType : NativeType
  externalTypes : List NativeType
  indirect : Bool
  byValue : Bool
  alignment : Nat
  extension : NativeAbiExtension
deriving Repr

structure ThunkSignature where
  returnType : NativeType
  returnCoercion : Option NativeType
  sourceReturnType : NativeType
  parameters : List NativeType
  bindings : List ParameterBinding
  hiddenResult : Bool
  checkedResult : Bool
  resultAlignment : Nat
  returnExtension : NativeAbiExtension
deriving Repr

def isAggregate : MirType → Bool
  | .struct _ | .slice _ => true
  | _ => false

def registerType (register : NativeAbiRegister) : Except NativeError NativeType :=
  match register.cls with
  | .integer => .ok (.int register.bits)
  | .floating =>
      if register.bits = 64 then .ok .f64
      else .error s!"unsupported floating ABI register width {register.bits}"

def registerTypes (registers : List NativeAbiRegister) : Except NativeError (List NativeType) :=
  registers.mapM registerType

/-- `aggregate_coercion_type` -/
def aggregateCoercionType (registers : List NativeAbiRegister) : Except NativeError NativeType := do
  match ← registerTypes registers with
  | [single] => .ok single
  | types => .ok (.literalStruct types)

/-- What one parameter of the source becomes. -/
def parameterBinding (classifier : NativeAbiClassifier) (typeNode : MirType) :
    Except NativeError ParameterBinding :=
  match typeNode with
  | .slice _ => do
      let source ← nativeType classifier.structs typeNode
      .ok ⟨typeNode, source, [.pointer, .int 32], false, false, 8, .none⟩
  | _ => do
      let classified ← classifier.classifyParameter typeNode
      let source ← nativeType classifier.structs typeNode
      if isAggregate typeNode then
        match classified.mode with
        | .indirect byValue alignment =>
            .ok ⟨typeNode, source, [.pointer], true, byValue, alignment, .none⟩
        | .direct registers => do
            let externalTypes ← registerTypes registers
            .ok ⟨typeNode, source, externalTypes, false, false, classified.layout.alignment, .none⟩
      else
        .ok ⟨typeNode, source, [source], false, false, classified.layout.alignment,
          classified.extension⟩

/-- How the result is returned: its type, its coercion, whether through a hidden pointer, the
alignment behind that pointer, and the extension. -/
structure ThunkResult where
  returnType : NativeType
  returnCoercion : Option NativeType
  hiddenResult : Bool
  resultAlignment : Nat
  returnExtension : NativeAbiExtension
deriving Repr

def thunkResult (returnType : MirType) (source : NativeType) (result : NativeAbiValue)
    (checked : Bool) : Except NativeError ThunkResult :=
  if checked then .ok ⟨.int 32, none, false, result.layout.alignment, .none⟩
  else if returnType = .void then .ok ⟨.void, none, false, result.layout.alignment, .none⟩
  else if isAggregate returnType then
    match result.mode with
    | .indirect _ alignment => .ok ⟨.void, none, true, alignment, .none⟩
    | .direct registers => do
        let coercion ← aggregateCoercionType registers
        .ok ⟨coercion, some coercion, false, result.layout.alignment, .none⟩
  else .ok ⟨source, none, false, result.layout.alignment, result.extension⟩

def thunkSignature (classifier : NativeAbiClassifier) (function : MirFunction) (checked : Bool) :
    Except NativeError ThunkSignature := do
  let source ← nativeType classifier.structs function.returnType
  let classified ← classifier.classifyReturn function.returnType
  let result ← thunkResult function.returnType source classified checked
  let bindings ← function.params.mapM fun parameter ↦
    parameterBinding classifier parameter.typeNode
  let checkedResult := checked && decide (function.returnType ≠ .void)
  .ok {
    returnType := result.returnType
    returnCoercion := result.returnCoercion
    sourceReturnType := source
    parameters := (if result.hiddenResult then [.pointer] else []) ++
      bindings.flatMap ParameterBinding.externalTypes ++ (if checkedResult then [.pointer] else [])
    bindings
    hiddenResult := result.hiddenResult
    checkedResult
    resultAlignment := result.resultAlignment
    returnExtension := result.returnExtension
  }

/-! ## Attributes -/

inductive NativeAttribute where
  | sret (pointee : NativeType) (alignment : Nat)
  | byval (pointee : NativeType) (alignment : Nat)
  | zeroExt
  | signExt
deriving Repr

/-- `add_param_extension` -/
def paramExtension (index : Nat) : NativeAbiExtension → List (Nat × NativeAttribute)
  | .none => []
  | .zero => [(index, .zeroExt)]
  | .sign => [(index, .signExt)]

def bindingAttributes : Nat → List ParameterBinding → List (Nat × NativeAttribute)
  | _, [] => []
  | index, binding :: bindings =>
      if binding.indirect then
        (if binding.byValue then [(index, .byval binding.sourceNativeType binding.alignment)]
          else []) ++ bindingAttributes (index + 1) bindings
      else
        (if binding.externalTypes.length = 1 then paramExtension index binding.extension else []) ++
          bindingAttributes (index + binding.externalTypes.length) bindings

/-- The attributes at an index. -/
def attributesAt (attributes : List (Nat × NativeAttribute)) (index : Nat) : List NativeAttribute :=
  (attributes.filter (·.1 = index)).map Prod.snd

structure NativeParameter where
  type : NativeType
  attributes : List NativeAttribute
deriving Repr

namespace ThunkSignature

def attributes (signature : ThunkSignature) : List (Nat × NativeAttribute) :=
  if signature.hiddenResult then
    (0, .sret signature.sourceReturnType signature.resultAlignment) ::
      bindingAttributes 1 signature.bindings
  else bindingAttributes 0 signature.bindings

/-- The parameters of the external function, each with the attributes added at its index. -/
def nativeParameters (signature : ThunkSignature) : List NativeParameter :=
  signature.parameters.mapIdx fun index type ↦
    ⟨type, attributesAt signature.attributes index⟩

end ThunkSignature

/-! ## The body -/

/-- The external parameters that one source parameter is put together from, and the index behind
them. -/
def ParameterBinding.read {α : Type} (binding : ParameterBinding) (param : Nat → Option α)
    (index : Nat) : Option (List α × Nat) :=
  match binding.sourceType with
  | .slice _ => do
      let data ← param index
      let len ← param (index + 1)
      some ([data, len], index + 2)
  | sourceType =>
      if binding.indirect then do
        let pointer ← param index
        some ([pointer], index + 1)
      else if isAggregate sourceType then
        if binding.externalTypes.length = 1 then do
          let value ← param index
          some ([value], index + 1)
        else do
          let parts ← (List.range' index binding.externalTypes.length).mapM param
          some (parts, index + binding.externalTypes.length)
      else do
        let value ← param index
        some ([value], index + 1)

def readBindings {α : Type} (param : Nat → Option α) :
    Nat → List ParameterBinding → Option (List (List α) × Nat)
  | index, [] => some ([], index)
  | index, binding :: bindings => do
      let (values, index) ← binding.read param index
      let (rest, index) ← readBindings param index bindings
      some (values :: rest, index)

/-- A pointer parameter that only some thunks have. -/
def readPointer {α : Type} (present : Bool) (param : Option α) : Option (List (List α)) :=
  if present then param.map fun value ↦ [[value]] else some []

/-- What the thunk reads from its parameters: the hidden result pointer, each source parameter,
and the pointer to the checked result. -/
def ThunkSignature.read {α : Type} (signature : ThunkSignature) (external : List α) :
    Option (List (List α)) := do
  let param := fun index ↦ external[index]?
  let hidden ← readPointer signature.hiddenResult (param 0)
  let (arguments, index) ← readBindings param (if signature.hiddenResult then 1 else 0)
    signature.bindings
  let checked ← readPointer signature.checkedResult (param index)
  some (hidden ++ arguments ++ checked)

/-! ## Where LLVM passes the parameters -/

/-- The register class of a scalar type. -/
def NativeType.regClass : NativeType → Option RegClass
  | .int bits => if bits ≤ 64 then some .integer else none
  | .pointer => some .integer
  | .f64 => some .sse
  | _ => none

def NativeParameter.byval (parameter : NativeParameter) : Option NativeType :=
  parameter.attributes.findSome? fun
    | .byval pointee _ => some pointee
    | _ => none

/-- A `byval` parameter is passed in memory, with the size `allocSize` that LLVM gives its type;
a scalar takes one register.  The `sret` pointer comes first and so takes the first one. -/
def NativeParameter.passing (allocSize : NativeType → Nat) (parameter : NativeParameter) :
    Option Passing :=
  match parameter.byval with
  | some pointee => some (.memory (allocSize pointee))
  | none => parameter.type.regClass.map fun cls ↦ .registers [cls]

/-- The places from which the thunk reads, parameter by parameter. -/
def ThunkSignature.places (allocSize : NativeType → Nat) (signature : ThunkSignature) :
    Option (List (List Place)) := do
  let passings ← signature.nativeParameters.mapM (NativeParameter.passing allocSize)
  let groups ← signature.read (Taken.start.passEach passings)
  some (groups.map List.flatten)

/-! ## The C prototype -/

/-- The C type of a MIR type. -/
inductive HasCShape (structs : List MirStruct) : MirType → CShape → Prop where
  | bool : HasCShape structs (.primitive .bool) (.scalar .integer .one)
  | i32 : HasCShape structs (.primitive .i32) (.scalar .integer .four)
  | u32 : HasCShape structs (.primitive .u32) (.scalar .integer .four)
  | i64 : HasCShape structs (.primitive .i64) (.scalar .integer .eight)
  | u64 : HasCShape structs (.primitive .u64) (.scalar .integer .eight)
  | f64 : HasCShape structs (.primitive .f64) (.scalar .sse .eight)
  | pointer {element : MirType} : HasCShape structs (.pointer element) (.scalar .integer .eight)
  | slice {element : MirType} : HasCShape structs (.slice element)
      (.struct [.scalar .integer .eight, .scalar .integer .four])
  | struct {name : String} {declared : MirStruct} {fields : List CShape}
      (found : structs.find? (·.name = name) = some declared)
      (types : List.Forall₂ (HasCShape structs) (declared.fields.map (·.typeNode)) fields) :
      HasCShape structs (.struct name) (.struct fields)

def NoVoidFields (structs : List MirStruct) : Prop :=
  ∀ declared ∈ structs, ∀ field ∈ declared.fields, field.typeNode ≠ .void

/-- The C parameters of a source parameter; a slice is two of them. -/
inductive CParameters (structs : List MirStruct) : MirParam → List CShape → Prop where
  | slice {name : String} {element : MirType} : CParameters structs ⟨name, .slice element⟩
      [.scalar .integer .eight, .scalar .integer .four]
  | value {parameter : MirParam} {type : CShape}
      (notSlice : ∀ element, parameter.typeNode ≠ .slice element)
      (hasType : HasCShape structs parameter.typeNode type) : CParameters structs parameter [type]

/-- Whether a result of this type is returned through a hidden pointer. -/
inductive ReturnedInMemory (structs : List MirStruct) : MirType → Bool → Prop where
  | void : ReturnedInMemory structs .void false
  | value {returnType : MirType} {type : CShape} (hasType : HasCShape structs returnType type) :
      ReturnedInMemory structs returnType (decide (16 < type.size))

structure Prototype where
  hiddenResult : Bool
  parameters : List (List CShape)
  checkedResult : Bool

/-- The prototype under which C calls the export: checked, it returns a status and takes a pointer
to the result. -/
structure IsPrototype (structs : List MirStruct) (function : MirFunction) (checked : Bool)
    (prototype : Prototype) : Prop where
  parameters : List.Forall₂ (CParameters structs) function.params prototype.parameters
  hiddenResult : if checked then prototype.hiddenResult = false
    else ReturnedInMemory structs function.returnType prototype.hiddenResult
  checkedResult : prototype.checkedResult = (checked && decide (function.returnType ≠ .void))

namespace Prototype

def pointerGroup (present : Bool) : List (List Passing) :=
  if present then [[.registers [.integer]]] else []

def groups (prototype : Prototype) : List (List Passing) :=
  pointerGroup prototype.hiddenResult ++ prototype.parameters.map (·.map CShape.passing) ++
    pointerGroup prototype.checkedResult

/-- The arguments as the ABI classifies them, the hidden pointer first. -/
def arguments (prototype : Prototype) : List Passing := prototype.groups.flatten

/-- Where the ABI puts them. -/
def places (prototype : Prototype) : List (List Place) := Taken.start.passGroups prototype.groups

end Prototype

end CalcKernel
