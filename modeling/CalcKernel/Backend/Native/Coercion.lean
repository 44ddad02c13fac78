import CalcKernel.Backend.Native.Thunk
import CalcKernel.Lib.CSpans

/-!
# Aggregates in registers

The registers of an aggregate on each target family, the LLVM type that joins them, and
the way of an aggregate through the memory of a thunk.
-/

namespace CalcKernel

open Lib

inductive NativeAbiTarget where
  | sysvX86_64 | darwinX86_64 | aapcs64Linux | aapcs64Darwin | windowsX86_64 | windowsArm64
deriving DecidableEq, Repr

namespace NativeAbiTarget

/-- The targets that pass every register on its own. -/
def isSysv : NativeAbiTarget → Bool
  | .sysvX86_64 | .darwinX86_64 => true
  | .aapcs64Linux | .aapcs64Darwin | .windowsX86_64 | .windowsArm64 => false

end NativeAbiTarget

namespace NativeAbiClassifier

/-- The fields of a structure after `total` members. -/
def homogeneousFields (members : MirType → Except NativeAbiError (Option Nat)) :
    Nat → List MirStructField → Except NativeAbiError (Option Nat)
  | total, [] => .ok (some total)
  | total, field :: fields => do
      match ← members field.typeNode with
      | none => .ok none
      | some count => homogeneousFields members (min 255 (total + count)) fields

/-- `homogeneous_f64_members` -/
def homogeneousF64Members (classifier : NativeAbiClassifier) :
    Nat → MirType → Except NativeAbiError (Option Nat)
  | _, .primitive .f64 => .ok (some 1)
  | 0, .struct name =>
      .error s!"directly recursive MIR struct '{name}' has no finite Native ABI layout"
  | fuel + 1, .struct name => do
      let declared ← classifier.structureNamed name
      if declared.fields = [] then .ok none
      else homogeneousFields (classifier.homogeneousF64Members fuel) 0 declared.fields
  | _, _ => .ok none

/-- `aapcs64::classify` -/
def classifyAapcs64 (classifier : NativeAbiClassifier) (typeNode : MirType) :
    Except NativeAbiError NativeAbiPassMode := do
  let layout ← classifier.layout typeNode
  let members ← classifier.homogeneousF64Members classifier.depth typeNode
  if members.any fun n ↦ decide (1 ≤ n ∧ n ≤ 4) then
    .ok (.direct (List.replicate (members.getD 0) ⟨.floating, 64⟩))
  else if layout.size ≤ 16 then
    .ok (.direct (List.replicate ((layout.size + 7) / 8) ⟨.integer, 64⟩))
  else .ok (.indirect false layout.alignment)

/-- `windows::classify_x64` -/
def classifyWindowsX64 (classifier : NativeAbiClassifier) (typeNode : MirType) :
    Except NativeAbiError NativeAbiPassMode := do
  let layout ← classifier.layout typeNode
  if layout.size = 1 ∨ layout.size = 2 ∨ layout.size = 4 ∨ layout.size = 8 then
    .ok (.direct [⟨.integer, layout.size * 8⟩])
  else .ok (.indirect false layout.alignment)

/-- The branch of `classify` for aggregates. -/
def classifyAggregate (classifier : NativeAbiClassifier) (target : NativeAbiTarget)
    (typeNode : MirType) (position : NativeAbiPosition) : Except NativeAbiError NativeAbiPassMode :=
  match target with
  | .sysvX86_64 | .darwinX86_64 => classifier.classifySysv typeNode position
  | .aapcs64Linux | .aapcs64Darwin | .windowsArm64 => classifier.classifyAapcs64 typeNode
  | .windowsX86_64 => classifier.classifyWindowsX64 typeNode

end NativeAbiClassifier

/-! ## Shapes -/

namespace NativeAbiClassifier

/-- The C type of a type; `void` takes no bytes. -/
def shapeInner (classifier : NativeAbiClassifier) : Nat → MirType → Option CShape
  | _, .void => some (.struct [])
  | _, .primitive .bool => some (.scalar .integer .one)
  | _, .primitive .i32 | _, .primitive .u32 => some (.scalar .integer .four)
  | _, .primitive .i64 | _, .primitive .u64 | _, .pointer _ => some (.scalar .integer .eight)
  | _, .primitive .f64 => some (.scalar .sse .eight)
  | _, .slice _ => some (.struct [.scalar .integer .eight, .scalar .integer .four])
  | 0, .struct _ => none
  | fuel + 1, .struct name =>
      (classifier.structs.find? (·.name = name)).bind fun declared ↦
        (declared.fields.mapM fun field ↦ classifier.shapeInner fuel field.typeNode).map .struct

def shape (classifier : NativeAbiClassifier) (typeNode : MirType) : Option CShape :=
  classifier.shapeInner classifier.depth typeNode

end NativeAbiClassifier

/-! ## The type that joins the registers -/

inductive CoercionType where
  | register (register : NativeAbiRegister)
  | literalStruct (registers : List NativeAbiRegister)
  | array (register : NativeAbiRegister) (length : Nat)
deriving DecidableEq, Repr

/-- `group_register_types` -/
def groupRegisterTypes : List NativeAbiRegister → Except NativeError CoercionType
  | [] => .error "aggregate has no ABI registers"
  | [single] => .ok (.register single)
  | first :: rest => .ok (.array first (rest.length + 1))

/-- `aggregate_parameter_types` -/
def aggregateParameterTypes (target : NativeAbiTarget) (registers : List NativeAbiRegister) :
    Except NativeError (List CoercionType) := do
  let _ ← registerTypes registers
  if target.isSysv then .ok (registers.map .register)
  else do
    let group ← groupRegisterTypes registers
    .ok [group]

/-- The type of a parameter that was put together from its parts: a single part is taken as it
is, several are the fields of a structure. -/
def joinedType : List CoercionType → CoercionType
  | [single] => single
  | parts => .literalStruct (parts.filterMap fun
      | .register r => some r
      | .literalStruct _ | .array _ _ => none)

/-- `aggregate_coercion_type`, with the target. -/
def resultCoercionType (target : NativeAbiTarget) (registers : List NativeAbiRegister) :
    Except NativeError CoercionType := do
  let _ ← registerTypes registers
  match registers with
  | [single] => .ok (.register single)
  | _ => if target.isSysv then .ok (.literalStruct registers) else groupRegisterTypes registers

def coercionType (target : NativeAbiTarget) (position : NativeAbiPosition)
    (registers : List NativeAbiRegister) : Except NativeError CoercionType :=
  match position with
  | .parameter => (aggregateParameterTypes target registers).map joinedType
  | .return => resultCoercionType target registers

/-! ## Memory -/

/-- Bytes in memory; `none` has no defined value. -/
abbrev NativeBytes := List (Option UInt8)

def NativeAbiRegister.bytes (register : NativeAbiRegister) : Nat := register.bits / 8

/-- The least multiple of `align` that is not below `n`. -/
def roundUp (align n : Nat) : Nat := (n + (align - 1)) / align * align

/-- The fields of a structure of registers behind `offset`. -/
def structPlaces (offset : Nat) : List NativeAbiRegister → List (Nat × NativeAbiRegister)
  | [] => []
  | r :: rest =>
      (roundUp r.bytes offset, r) :: structPlaces (roundUp r.bytes offset + r.bytes) rest

def structEnd (offset : Nat) : List NativeAbiRegister → Nat
  | [] => offset
  | r :: rest => structEnd (roundUp r.bytes offset + r.bytes) rest

def structAlign : List NativeAbiRegister → Nat
  | [] => 1
  | r :: rest => max r.bytes (structAlign rest)

namespace CoercionType

/-- Where the registers of a value stand in memory. -/
def places : CoercionType → List (Nat × NativeAbiRegister)
  | .register r => [(0, r)]
  | .literalStruct registers => structPlaces 0 registers
  | .array r length => (List.range length).map fun k ↦ (k * r.bytes, r)

/-- The bytes that a slot of the type has and a store of it writes. -/
def size : CoercionType → Nat
  | .register r => r.bytes
  | .literalStruct registers => roundUp (structAlign registers) (structEnd 0 registers)
  | .array r length => length * r.bytes

/-- What a value with these registers is in memory. -/
def image (type : CoercionType) (contents : List NativeBytes) : NativeBytes :=
  (List.range type.size).map fun i ↦
    ((type.places.zip contents).findSome? fun p ↦
      if p.1.1 ≤ i ∧ i < p.1.1 + p.1.2.bytes then some (p.2.getD (i - p.1.1) none) else none).getD
        none

/-- The registers of a value that is loaded from memory. -/
def contents (type : CoercionType) (bytes : NativeBytes) : List NativeBytes :=
  type.places.map fun p ↦ (bytes.drop p.1).take p.2.bytes

end CoercionType

/-- `reinterpret_value`: the value is stored to a slot of the type it is loaded at.  There is no
result when the store writes more than the slot holds. -/
def reinterpretValue (slot : Nat) (value : NativeBytes) : Option NativeBytes :=
  if value.length ≤ slot then some (value ++ List.replicate (slot - value.length) none) else none

/-- The registers in which an aggregate with these bytes is passed: eight bytes for each. -/
def registerContents (registers : List NativeAbiRegister) (bytes : Nat → Option UInt8) :
    List NativeBytes :=
  registers.mapIdx fun k r ↦ (List.range r.bytes).map fun j ↦ bytes (8 * k + j)

/-! ## What holds of an aggregate -/

/-- Every byte of a field lies inside the used bits of its chunk. -/
def FieldsInChunks (type : CShape) (chunks : List AggregateChunk) : Prop :=
  ∀ o, type.FieldByte o → ∃ chunk, chunks[o / 8]? = some chunk ∧ 8 * (o % 8) + 8 ≤ chunk.usedBits

/-- Every byte of a field lies inside the register of its chunk. -/
def FieldsInRegisters (type : CShape) (registers : List NativeAbiRegister) : Prop :=
  ∀ o, type.FieldByte o → ∃ r, registers[o / 8]? = some r ∧ 8 * (o % 8) + 8 ≤ r.bits

/-- A register is floating exactly when all scalars of its chunk are. -/
def ChunksFloating (type : CShape) (registers : List NativeAbiRegister) : Prop :=
  ∀ k r, registers[k]? = some r →
    (r.cls = .floating ↔ ∀ s ∈ type.spans 0, s.offset / 8 = k → s.cls = .sse)

/-- A group is floating exactly when it has one to four members and all of them are. -/
def GroupFloating (type : CShape) (registers : List NativeAbiRegister) : Prop :=
  ∀ r ∈ registers, (r.cls = .floating ↔
    (∀ c ∈ type.members, c = some .sse) ∧ 1 ≤ type.members.length ∧ type.members.length ≤ 4)

def RegistersFloating (target : NativeAbiTarget) (type : CShape)
    (registers : List NativeAbiRegister) : Prop :=
  match target with
  | .sysvX86_64 | .darwinX86_64 => ChunksFloating type registers
  | .aapcs64Linux | .aapcs64Darwin | .windowsArm64 => GroupFloating type registers
  | .windowsX86_64 => True

/-- From the registers the thunk gets every field of a parameter. -/
def ParameterUnchanged (type : CShape) (registers : List NativeAbiRegister)
    (coercion : CoercionType) : Prop :=
  ∀ bytes : Nat → Option UInt8, ∃ out,
    reinterpretValue type.size (coercion.image (registerContents registers bytes)) = some out ∧
      ∀ o, type.FieldByte o → out[o]? = some (bytes o)

/-- From the result the thunk gets registers with every field. -/
def ResultUnchanged (type : CShape) (coercion : CoercionType) : Prop :=
  ∀ bytes : Nat → Option UInt8, ∃ out,
    reinterpretValue coercion.size ((List.range type.size).map bytes) = some out ∧
      ∀ o, type.FieldByte o → ∃ part, (coercion.contents out)[o / 8]? = some part ∧
        part[o % 8]? = some (bytes o)

def FieldsUnchanged (position : NativeAbiPosition) (type : CShape)
    (registers : List NativeAbiRegister) (coercion : CoercionType) : Prop :=
  match position with
  | .parameter => ParameterUnchanged type registers coercion
  | .return => ResultUnchanged type coercion

/-- The coercion of a structure with this C type keeps its fields. -/
structure CoercionPreserves (classifier : NativeAbiClassifier) (target : NativeAbiTarget)
    (position : NativeAbiPosition) (name : String) (type : CShape)
    (registers : List NativeAbiRegister) : Prop where
  inChunks : target.isSysv = true → ∀ chunks,
    classifier.classifySysvChunks classifier.depth (.struct name) 0
      (List.replicate ((type.size + 7) / 8) AggregateChunk.default) = .ok chunks →
        FieldsInChunks type chunks
  inRegisters : FieldsInRegisters type registers
  floating : RegistersFloating target type registers
  unchanged : ∀ coercion, coercionType target position registers = .ok coercion →
    FieldsUnchanged position type registers coercion

/-- The sizes of structures whose registers are no larger than they are. -/
def FitsSlot (target : NativeAbiTarget) (size : Nat) : Prop :=
  match target with
  | .sysvX86_64 | .darwinX86_64 =>
      size = 0 ∨ size = 1 ∨ size = 2 ∨ size = 4 ∨ size = 8 ∨ size = 16
  | .aapcs64Linux | .aapcs64Darwin | .windowsArm64 => 8 ∣ size
  | .windowsX86_64 => True

end CalcKernel
