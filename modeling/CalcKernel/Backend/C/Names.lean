import CalcKernel.Kir.Model
import CalcKernel.Lib.Names

/-!
# The names of the C backend

The names that the emitted C file declares: those of the source as they stand, and those made
for values, results, statuses, slice types and the temporaries of edges.
-/

namespace CalcKernel

open Lib

/-! ## Types -/

/-- `sanitize_c_identifier` -/
def sanitizeCIdentifier (name : String) : String :=
  name.map fun c ↦ if c.isAlphanum || c = '_' then c else '_'

def cGeneratedTypeName : MirType → String
  | .primitive .i32 => "i32"
  | .primitive .i64 => "i64"
  | .primitive .u32 => "u32"
  | .primitive .u64 => "u64"
  | .primitive .f64 => "f64"
  | .primitive .bool => "bool"
  | .pointer element => "ptr_" ++ cGeneratedTypeName element
  | .slice element => "slice_" ++ cGeneratedTypeName element
  | .struct name => sanitizeCIdentifier name
  | .void => "void"

/-- The name that is wanted for a slice type. -/
def cSliceName : MirType → String
  | .slice element => "CK_Slice_" ++ cGeneratedTypeName element
  | other => "CK_Slice_" ++ cGeneratedTypeName other

namespace KirModule

variable (m : KirModule)

def statusAbi : Bool :=
  m.config.overflowMode = .checked || m.config.boundsMode = .checked ||
    m.functions.any fun f ↦ f.instructions.any fun i ↦
      match i.kind with
      | .guard _ _ => true
      | _ => false

/-- The names that are taken before the slice types are named. -/
def globalNames : List String :=
  ["CK_Status", "CK_OK", "CK_ERR_OVERFLOW", "CK_ERR_DIV_BY_ZERO", "CK_ERR_NULL_POINTER",
    "CK_ERR_OUT_OF_BOUNDS", "CKC_UNUSED", "CKC_ASSUME_ALIGNED", "CKC_RESTRICT"] ++
    m.structs.map (·.name) ++ m.functions.map (·.name)

/-- The names of the slice types, which are a set and may come in any order. -/
def sliceNames (slices : List MirType) : List String :=
  allocateAll m.globalNames (slices.map cSliceName)

end KirModule

/-! ## Functions -/

inductive KirCParamLayout where
  | scalar (name : String)
  | slice (data len : String)
deriving DecidableEq, Repr

def KirCParamLayout.names : KirCParamLayout → List String
  | .scalar name => [name]
  | .slice data len => [data, len]

structure KirCFunctionLayout where
  params : List (ValueId × KirCParamLayout)
  values : List (ValueId × String)
  returnPointer : String
  callStatus : List (InstructionId × String)
deriving DecidableEq, Repr

/-- Names for the parameters, and the names used after that. -/
def allocateParams (used : List String) :
    List KirParam → List (ValueId × KirCParamLayout) × List String
  | [] => ([], used)
  | param :: params =>
      match param.typeNode with
      | .slice _ =>
          let data := firstFree used (param.name ++ "_data")
          let len := firstFree (data :: used) (param.name ++ "_len")
          let rest := allocateParams (len :: data :: used) params
          ((param.value, .slice data len) :: rest.1, rest.2)
      | _ =>
          let rest := allocateParams used params
          ((param.value, .scalar param.name) :: rest.1, rest.2)

/-- Names for things of which each wants one, and the names used after that. -/
def allocateEach (used : List String) : List (Nat × String) → List (Nat × String) × List String
  | [] => ([], used)
  | (key, preferred) :: rest =>
      let name := firstFree used preferred
      let names := allocateEach (name :: used) rest
      ((key, name) :: names.1, names.2)

def cValueName (value : ValueId) : String := "ck_v" ++ toString value

def callStatusName (instruction : InstructionId) : String := "ck_status_" ++ toString instruction

def KirInstruction.isCall (i : KirInstruction) : Bool :=
  match i.kind with
  | .call _ _ => true
  | _ => false

namespace KirFunction

variable (f : KirFunction)

/-- `value_ids`, a sorted set. -/
def sortedValueIds : List ValueId := f.valueIds.dedup.mergeSort

def callIds : List InstructionId := (f.instructions.filter (·.isCall)).map (·.id)

def paramNames : List String := f.params.map (·.name)

/-- `KirCFunctionLayout::new` -/
def cLayout : KirCFunctionLayout :=
  let params := allocateParams f.paramNames f.params
  let values := allocateEach params.2 (f.sortedValueIds.map fun v ↦ (v, cValueName v))
  let returnPointer := firstFree values.2 "ck_return"
  let callStatus := allocateEach (returnPointer :: values.2)
    (f.callIds.map fun i ↦ (i, callStatusName i))
  ⟨params.1, values.1, returnPointer, callStatus.1⟩

end KirFunction

/-! ## Declarations -/

namespace KirModule

variable (m : KirModule)

/-- The ordinary identifiers declared at file scope. -/
def fileNames (slices : List MirType) : List String :=
  (if m.statusAbi then ["CK_Status"] else []) ++ m.structs.map (·.name) ++ m.sliceNames slices ++
    m.functions.map (·.name)

/-- The ordinary identifiers declared in the head of a function and at the start of its body. -/
def functionNames (f : KirFunction) : List String :=
  f.cLayout.params.flatMap (fun p ↦ p.2.names) ++
    (if m.statusAbi ∧ f.returnType ≠ .void then [f.cLayout.returnPointer] else []) ++
    f.cLayout.values.map Prod.snd ++
    (if m.statusAbi then f.cLayout.callStatus.map Prod.snd else [])

end KirModule

def edgeTemporaryName (target : BlockId) (index : Nat) : String :=
  "ck_edge_" ++ toString target ++ "_" ++ toString index

/-- The ordinary identifiers declared in the block of an edge. -/
def KirFunction.edgeNames (f : KirFunction) (edge : KirEdge) : List String :=
  match f.blocks.find? (·.id = edge.target) with
  | none => []
  | some target =>
      (target.params.zip edge.args).mapIdx fun index _ ↦ edgeTemporaryName edge.target index

def KirFunction.emittedEdges (f : KirFunction) : List KirEdge :=
  f.blocks.flatMap (·.terminator.edges)

/-! ## Reserved identifiers -/

def cKeywords : List String :=
  ["auto", "break", "case", "char", "const", "continue", "default", "do", "double", "else", "enum",
    "extern", "float", "for", "goto", "if", "inline", "int", "long", "register", "restrict",
    "return", "short", "signed", "sizeof", "static", "struct", "switch", "typedef", "union",
    "unsigned", "void", "volatile", "while"]

/-- The macros and types of the headers that the file includes. -/
def cHeaderNames : List String :=
  ["bool", "true", "false", "NULL", "offsetof", "size_t", "ptrdiff_t", "wchar_t", "max_align_t",
    "int8_t", "int16_t", "int32_t", "int64_t", "uint8_t", "uint16_t", "uint32_t", "uint64_t",
    "int_least8_t", "int_least16_t", "int_least32_t", "int_least64_t", "uint_least8_t",
    "uint_least16_t", "uint_least32_t", "uint_least64_t", "int_fast8_t", "int_fast16_t",
    "int_fast32_t", "int_fast64_t", "uint_fast8_t", "uint_fast16_t", "uint_fast32_t",
    "uint_fast64_t", "intptr_t", "uintptr_t", "intmax_t", "uintmax_t", "INT8_MIN", "INT16_MIN",
    "INT32_MIN", "INT64_MIN", "INT8_MAX", "INT16_MAX", "INT32_MAX", "INT64_MAX", "UINT8_MAX",
    "UINT16_MAX", "UINT32_MAX", "UINT64_MAX", "INT_LEAST8_MIN", "INT_LEAST16_MIN",
    "INT_LEAST32_MIN", "INT_LEAST64_MIN", "INT_LEAST8_MAX", "INT_LEAST16_MAX", "INT_LEAST32_MAX",
    "INT_LEAST64_MAX", "UINT_LEAST8_MAX", "UINT_LEAST16_MAX", "UINT_LEAST32_MAX",
    "UINT_LEAST64_MAX", "INT_FAST8_MIN", "INT_FAST16_MIN", "INT_FAST32_MIN", "INT_FAST64_MIN",
    "INT_FAST8_MAX", "INT_FAST16_MAX", "INT_FAST32_MAX", "INT_FAST64_MAX", "UINT_FAST8_MAX",
    "UINT_FAST16_MAX", "UINT_FAST32_MAX", "UINT_FAST64_MAX", "INTPTR_MIN", "INTPTR_MAX",
    "UINTPTR_MAX", "INTMAX_MIN", "INTMAX_MAX", "UINTMAX_MAX", "PTRDIFF_MIN", "PTRDIFF_MAX",
    "SIG_ATOMIC_MIN", "SIG_ATOMIC_MAX", "SIZE_MAX", "WCHAR_MIN", "WCHAR_MAX", "WINT_MIN",
    "WINT_MAX", "INT8_C", "INT16_C", "INT32_C", "INT64_C", "UINT8_C", "UINT16_C", "UINT32_C",
    "UINT64_C", "INTMAX_C", "UINTMAX_C"]

/-- The macros of the file itself. -/
def cMacros (status : Bool) : List String :=
  ["CKC_UNUSED", "CKC_ASSUME_ALIGNED", "CKC_RESTRICT"] ++
    if status then ["CK_OK", "CK_ERR_OVERFLOW", "CK_ERR_DIV_BY_ZERO", "CK_ERR_NULL_POINTER",
      "CK_ERR_OUT_OF_BOUNDS"]
    else []

/-- An underscore and behind it another one or a capital letter. -/
def hasReservedStart (name : String) : Bool :=
  match name.toList with
  | '_' :: c :: _ => c = '_' || c.isUpper
  | _ => false

def isReserved (status : Bool) (name : String) : Bool :=
  cKeywords.contains name || cHeaderNames.contains name || (cMacros status).contains name ||
    hasReservedStart name

/-- At file scope no name may start with an underscore. -/
def isReservedAtFileScope (status : Bool) (name : String) : Bool :=
  name.toList.head? = some '_' || isReserved status name

/-! ## What is claimed of the names -/

/-- Names whose scopes overlap are different, and none is reserved. -/
structure NamesApart (m : KirModule) (slices : List MirType) : Prop where
  file : (m.fileNames slices).Nodup
  functions : ∀ f ∈ m.functions, (m.fileNames slices ++ m.functionNames f).Nodup
  edges : ∀ f ∈ m.functions, ∀ edge ∈ f.emittedEdges,
    (m.fileNames slices ++ m.functionNames f ++ f.edgeNames edge).Nodup
  members : ∀ s ∈ m.structs, (s.fields.map (·.name)).Nodup
  fileFree : ∀ name ∈ m.fileNames slices, isReservedAtFileScope m.statusAbi name = false
  functionsFree : ∀ f ∈ m.functions, ∀ name ∈ m.functionNames f,
    isReserved m.statusAbi name = false
  edgesFree : ∀ f ∈ m.functions, ∀ edge ∈ f.emittedEdges, ∀ name ∈ f.edgeNames edge,
    isReserved m.statusAbi name = false
  membersFree : ∀ s ∈ m.structs, ∀ field ∈ s.fields, isReserved m.statusAbi field.name = false

/-! ## The names of the source -/

/-- What the checker of the source and the validator make sure of. -/
structure CheckedNames (m : KirModule) : Prop where
  structs : (m.structs.map (·.name)).Nodup
  fields : ∀ s ∈ m.structs, (s.fields.map (·.name)).Nodup
  functions : (m.functions.map (·.name)).Nodup
  params : ∀ f ∈ m.functions, f.paramNames.Nodup
  instructions : ∀ f ∈ m.functions, (f.instructions.map (·.id)).Nodup

namespace KirFunction

variable (f : KirFunction)

/-- How a parameter is called in C: as in the source, or for a slice by the first names for its
data and its length that no parameter of the source has. -/
def cParamNames (param : KirParam) : List String :=
  match param.typeNode with
  | .slice _ => [firstFree f.paramNames (param.name ++ "_data"),
      firstFree f.paramNames (param.name ++ "_len")]
  | _ => [param.name]

/-- The names that are wanted for what has none in the source. -/
def wantedNames (status : Bool) : List String :=
  (if status ∧ f.returnType ≠ .void then ["ck_return"] else []) ++
    f.sortedValueIds.map cValueName ++ (if status then f.callIds.map callStatusName else [])

end KirFunction

/-- The names of the source keep out of each other's way and out of that of the generated ones. -/
structure SourceNamesApart (m : KirModule) (slices : List MirType) : Prop where
  structsFunctions : ∀ s ∈ m.structs, ∀ f ∈ m.functions, s.name ≠ f.name
  structsFree : ∀ s ∈ m.structs, isReservedAtFileScope m.statusAbi s.name = false
  functionsFree : ∀ f ∈ m.functions, isReservedAtFileScope m.statusAbi f.name = false
  fieldsFree : ∀ s ∈ m.structs, ∀ field ∈ s.fields, isReserved m.statusAbi field.name = false
  status : m.statusAbi = true → (∀ s ∈ m.structs, s.name ≠ "CK_Status") ∧
    ∀ f ∈ m.functions, f.name ≠ "CK_Status"
  paramsFree : ∀ f ∈ m.functions, ∀ param ∈ f.params, ∀ name ∈ f.cParamNames param,
    isReserved m.statusAbi name = false
  params : ∀ f ∈ m.functions, ∀ param ∈ f.params, ∀ name ∈ f.cParamNames param,
    name ∉ m.fileNames slices
  wanted : ∀ f ∈ m.functions, ∀ preferred ∈ f.wantedNames m.statusAbi,
    (∀ s ∈ m.structs, s.name ≠ firstFree f.paramNames preferred) ∧
      ∀ f' ∈ m.functions, f'.name ≠ firstFree f.paramNames preferred
  edges : ∀ f ∈ m.functions, ∀ edge ∈ f.emittedEdges, ∀ name ∈ f.edgeNames edge,
    (∀ s ∈ m.structs, s.name ≠ name) ∧ (∀ f' ∈ m.functions, f'.name ≠ name) ∧
      ∀ param ∈ f.params, name ∉ f.cParamNames param

end CalcKernel
