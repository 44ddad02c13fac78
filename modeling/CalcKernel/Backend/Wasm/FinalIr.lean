import CalcKernel.Backend.Wasm.FinalOpcodes
import CalcKernel.Lib.Utf8
import CalcKernel.Lib.Codec

/-!
# The final WebAssembly module and its text

A module of typed functions and instructions, and the text `to_wat` prints: one line for each
declaration and each instruction.
-/

namespace CalcKernel

open Lib

structure FinalLocal where
  name : List Char
  ty : WasmValueType
deriving DecidableEq

/-- Integer constants in two's complement, floats by their bits; an alignment is the exponent of
a power of two. -/
inductive FinalInstructionKind
  | simple (opcode : SimpleOpcode)
  | i32Const (value : BitVec 32)
  | i64Const (value : BitVec 64)
  | f64Const (bits : BitVec 64)
  | v128Const (bytes : List UInt8)
  | localGet (name : List Char)
  | localSet (name : List Char)
  | localTee (name : List Char)
  | call (name : List Char)
  | block (label : Option (List Char)) (results : List WasmValueType)
  | loop (label : Option (List Char)) (results : List WasmValueType)
  | if_ (label : Option (List Char)) (results : List WasmValueType)
  | else_
  | end_
  | br (label : List Char)
  | brIf (label : List Char)
  | brTable (targets : List (List Char)) (default : List Char)
  | load (opcode : MemoryOpcode) (offset : UInt64) (align : Nat)
  | store (opcode : MemoryOpcode) (offset : UInt64) (align : Nat)
  | memorySize
  | memoryGrow
  | memoryCopy
  | memoryFill
  | lane (opcode : LaneOpcode) (lane : UInt8)
  | shuffle (lanes : Vector UInt8 16)
deriving DecidableEq

structure FinalInstruction where
  indent : Nat
  kind : FinalInstructionKind
deriving DecidableEq

structure FinalWasmFunction where
  name : List Char
  exportName : Option (List Char)
  params : List FinalLocal
  results : List WasmValueType
  locals : List FinalLocal
  body : List FinalInstruction
deriving DecidableEq

structure FinalWasmModule where
  functions : List FinalWasmFunction
  memoryMinimum : UInt32
  targetMetadata : Option (List UInt8)
deriving DecidableEq

/-- The decimal texts of floating point numbers, which the standard library writes and reads; a
number is given by its bits. -/
structure FloatText where
  formatF64 : BitVec 64 → List Char
  parseF64 : List Char → Option (BitVec 64)
  parseF32 : List Char → Option (BitVec 32)

/-! ## Writing -/

def decimal (n : Nat) : List Char := Nat.toDigits 10 n

def signedDecimal (n : Int) : List Char :=
  if n < 0 then '-' :: decimal n.natAbs else decimal n.natAbs

def formatF64 (floats : FloatText) (bits : BitVec 64) : List Char :=
  let negative := bits.toNat / 2 ^ 63 ≠ 0
  let exponent := bits.toNat / 2 ^ 52 % 0x800
  let fraction := bits.toNat % 2 ^ 52
  let sign := if negative then ['-'] else []
  if exponent = 0x7ff ∧ fraction ≠ 0 then
    let digits := Nat.toDigits 16 fraction
    sign ++ "nan:0x".toList ++ (List.replicate (13 - digits.length) '0' ++ digits)
  else if exponent = 0x7ff then sign ++ "inf".toList
  else floats.formatF64 bits

def writeTypes (types : List WasmValueType) : List Char :=
  types.flatMap fun ty ↦ ' ' :: ty.wat.toList

def writeControl (kind : String) (label : Option (List Char)) (results : List WasmValueType) :
    List Char :=
  kind.toList ++ label.elim [] (fun label ↦ ' ' :: '$' :: label) ++
  (if results = [] then [] else ' ' :: "(result".toList ++ writeTypes results ++ [')'])

/-- `1u32.checked_shl(align).unwrap_or(0)`. -/
def alignBytes (align : Nat) : Nat := if align < 32 then 2 ^ align else 0

def writeInstruction (floats : FloatText) : FinalInstructionKind → List Char
  | .simple opcode => opcode.wat.toList
  | .i32Const value => "i32.const".toList ++ ' ' :: signedDecimal value.toInt
  | .i64Const value => "i64.const".toList ++ ' ' :: signedDecimal value.toInt
  | .f64Const bits => "f64.const".toList ++ ' ' :: formatF64 floats bits
  | .v128Const bytes => "v128.const i8x16".toList ++
      bytes.flatMap fun byte ↦ ' ' :: signedDecimal byte.toBitVec.toInt
  | .localGet name => "local.get".toList ++ ' ' :: '$' :: name
  | .localSet name => "local.set".toList ++ ' ' :: '$' :: name
  | .localTee name => "local.tee".toList ++ ' ' :: '$' :: name
  | .call name => "call".toList ++ ' ' :: '$' :: name
  | .block label results => writeControl "block" label results
  | .loop label results => writeControl "loop" label results
  | .if_ label results => writeControl "if" label results
  | .else_ => "else".toList
  | .end_ => "end".toList
  | .br label => "br".toList ++ ' ' :: '$' :: label
  | .brIf label => "br_if".toList ++ ' ' :: '$' :: label
  | .brTable targets default => "br_table".toList ++
      targets.flatMap (fun target ↦ ' ' :: '$' :: target) ++ ' ' :: '$' :: default
  | .load opcode offset align | .store opcode offset align =>
      opcode.wat.toList ++ ' ' :: "offset=".toList ++ decimal offset.toNat ++
        ' ' :: "align=".toList ++ decimal (alignBytes align)
  | .memorySize => "memory.size".toList
  | .memoryGrow => "memory.grow".toList
  | .memoryCopy => "memory.copy".toList
  | .memoryFill => "memory.fill".toList
  | .lane opcode lane => opcode.wat.toList ++ ' ' :: decimal lane.toNat
  | .shuffle lanes => "i8x16.shuffle".toList ++
      lanes.toList.flatMap fun lane ↦ ' ' :: decimal lane.toNat

/-- A byte of the metadata: printable ASCII stands for itself. -/
def escapeByte (byte : UInt8) : List Char :=
  if byte = 0x22 then "\\22".toList
  else if byte = 0x5c then "\\5c".toList
  else if 0x20 ≤ byte ∧ byte ≤ 0x7e then [Char.ofNat byte.toNat]
  else ['\\', (byte.toNat / 16).digitChar, (byte.toNat % 16).digitChar]

namespace FinalWasmModule

/-- A module has one metadata payload at most. -/
def setTargetMetadata (m : FinalWasmModule) (metadata : List UInt8) :
    Except String FinalWasmModule :=
  match m.targetMetadata with
  | some _ => .error "WebAssembly module contains more than one ck.wasm.target payload"
  | none => .ok { m with targetMetadata := some metadata }

end FinalWasmModule

def localLine (kind : String) (l : FinalLocal) : List Char :=
  List.replicate 4 ' ' ++ ('(' :: kind.toList ++ ' ' :: '$' :: l.name ++ ' ' :: l.ty.wat.toList ++
    [')'])

def headerText (f : FinalWasmFunction) : List Char :=
  "(func $".toList ++ f.name ++
    f.exportName.elim [] fun exportName ↦ " (export \"".toList ++ exportName ++ "\")".toList

def headerLine (f : FinalWasmFunction) : List Char := List.replicate 2 ' ' ++ headerText f

def resultLine (results : List WasmValueType) : List Char :=
  List.replicate 4 ' ' ++ ('(' :: "result".toList ++ writeTypes results ++ [')'])

def instructionLine (floats : FloatText) (instruction : FinalInstruction) : List Char :=
  List.replicate instruction.indent ' ' ++ writeInstruction floats instruction.kind

/-- The lines of a function, behind an empty one. -/
def FinalWasmFunction.lines (floats : FloatText) (f : FinalWasmFunction) : List (List Char) :=
  [[], headerLine f] ++ f.params.map (localLine "param") ++
    (if f.results = [] then [] else [resultLine f.results]) ++ f.locals.map (localLine "local") ++
    f.body.map (instructionLine floats) ++ [List.replicate 2 ' ' ++ [')']]

def memoryLine (memoryMinimum : UInt32) : List Char :=
  List.replicate 2 ' ' ++
    ("(memory (export \"memory\") ".toList ++ decimal memoryMinimum.toNat ++ [')'])

def metadataLine (metadata : List UInt8) : List Char :=
  List.replicate 2 ' ' ++ ("(@custom \"ck.wasm.target\" \"".toList ++
    (fromUtf8Lossy metadata).flatMap escapeByte ++ "\")".toList)

def FinalWasmModule.lines (floats : FloatText) (m : FinalWasmModule) : List (List Char) :=
  ["(module".toList, memoryLine m.memoryMinimum,
      List.replicate 2 ' ' ++ "(global (export \"__ck_heap_base\") i32 (i32.const 0))".toList] ++
    m.functions.flatMap (·.lines floats) ++
    m.targetMetadata.elim [] (fun metadata ↦ [metadataLine metadata]) ++ [[')']]

/-- Every line of the text ends in a newline. -/
def FinalWasmModule.toWat (floats : FloatText) (m : FinalWasmModule) : List Char :=
  (m.lines floats).flatMap (· ++ ['\n'])

end CalcKernel
