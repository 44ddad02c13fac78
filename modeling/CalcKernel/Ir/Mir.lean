import Mathlib.Tactic.Common

/-!
# Semantic MIR

The named-local control-flow graph that the frontend produces and that KIR
construction consumes.  Names are the source's; `Box`ed subterms are plain
recursive constructors.
-/

namespace CalcKernel

inductive MirPrimitiveTypeName where
  | i32 | i64 | u32 | u64 | f64 | bool
deriving DecidableEq, Repr

inductive MirType where
  | primitive (name : MirPrimitiveTypeName)
  | pointer (element : MirType)
  | slice (element : MirType)
  | struct (name : String)
  | void
deriving DecidableEq, Repr

structure MirStructField where
  name : String
  typeNode : MirType
deriving DecidableEq, Repr

structure MirStruct where
  name : String
  fields : List MirStructField
deriving DecidableEq, Repr

inductive MirEntryResult where
  | void | i32
deriving DecidableEq, Repr

structure MirEntryPoint where
  functionName : String
  result : MirEntryResult
deriving DecidableEq, Repr

inductive MirBinaryOp where
  | add | sub | mul | div | mod
deriving DecidableEq, Repr

inductive MirCompareOp where
  | eq | ne | lt | le | gt | ge
deriving DecidableEq, Repr

inductive MirUnaryOp where
  | neg | not
deriving DecidableEq, Repr

inductive MirCastOp where
  | i32ToF64 | u32ToF64
deriving DecidableEq, Repr

inductive MirRuntimeIntrinsic where
  | printI32 | printI64 | printU32 | printU64 | printF64 | printBool | printNewline
deriving DecidableEq, Repr

inductive MirValue where
  | param (name : String) (typeNode : MirType)
  | local (name : String) (typeNode : MirType)
  | temp (name : String) (typeNode : MirType)
  | constInt (text : String) (typeNode : MirType)
  | constFloat (text : String) (typeNode : MirType)
  | constBool (value : Bool) (typeNode : MirType)
deriving DecidableEq, Repr

inductive MirPlace where
  | param (name : String) (typeNode : MirType)
  | local (name : String) (typeNode : MirType)
  | deref (pointer : MirValue) (typeNode : MirType)
  | index (base : MirPlace) (index : MirValue) (typeNode : MirType)
  | sliceIndex (slice index : MirValue) (typeNode : MirType)
  | field (base : MirPlace) (fieldName : String) (typeNode : MirType)
deriving DecidableEq, Repr

inductive MirInstruction where
  | constInt (target : MirValue) (value : String)
  | constFloat (target : MirValue) (value : String)
  | constBool (target : MirValue) (value : Bool)
  | move (target value : MirValue)
  | binary (target : MirValue) (op : MirBinaryOp) (left right : MirValue)
  | unary (target : MirValue) (op : MirUnaryOp) (operand : MirValue)
  | compare (target : MirValue) (op : MirCompareOp) (left right : MirValue)
  | cast (target : MirValue) (op : MirCastOp) (value : MirValue)
  | address (target : MirValue) (place : MirPlace)
  | load (target : MirValue) (place : MirPlace)
  | store (place : MirPlace) (value : MirValue)
  | makeSlice (target data len : MirValue)
  | sliceData (target slice : MirValue)
  | sliceLen (target slice : MirValue)
  | subslice (target slice start stop : MirValue)
  | call (target : Option MirValue) (functionName : String) (args : List MirValue)
  | runtimeCall (intrinsic : MirRuntimeIntrinsic) (args : List MirValue)
deriving DecidableEq, Repr

inductive MirTerminator where
  | return (value : Option MirValue)
  | jump (label : String)
  | branch (condition : MirValue) (thenLabel elseLabel : String)
deriving DecidableEq, Repr

structure MirBlock where
  label : String
  instructions : List MirInstruction
  terminator : MirTerminator
deriving DecidableEq, Repr

structure MirParam where
  name : String
  typeNode : MirType
deriving DecidableEq, Repr

structure MirLocal where
  name : String
  typeNode : MirType
deriving DecidableEq, Repr

structure MirFunction where
  name : String
  exported : Bool
  params : List MirParam
  returnType : MirType
  locals : List MirLocal
  blocks : List MirBlock
deriving DecidableEq, Repr

structure MirModule where
  entry : Option MirEntryPoint
  structs : List MirStruct
  functions : List MirFunction
deriving DecidableEq, Repr

def MirValue.typeNode : MirValue → MirType
  | .param _ t | .local _ t | .temp _ t | .constInt _ t | .constFloat _ t | .constBool _ t => t

def MirPlace.typeNode : MirPlace → MirType
  | .param _ t | .local _ t | .deref _ t | .index _ _ t | .sliceIndex _ _ t | .field _ _ t => t

namespace MirType

abbrev i32 : MirType := .primitive .i32
abbrev i64 : MirType := .primitive .i64
abbrev u32 : MirType := .primitive .u32
abbrev u64 : MirType := .primitive .u64
abbrev f64 : MirType := .primitive .f64
abbrev bool : MirType := .primitive .bool

end MirType

end CalcKernel
